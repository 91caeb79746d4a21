import AionMiner.Solver.Rounds

/-! Nine rounds in a row: the layers they leave in the two heaps form a forest
that is sound for the scheme, and complete when no bucket overflowed. -/

namespace Aion.Solver
open Bits Equihash Wagner Store

/-- `digit0`: all leaves are placed, in some order. -/
structure LeavesOf (L : Layout) (H : Blake2b) (base : Blake2bState) (M M' : Memory) : Prop where
  requests : ∃ qs : List ℕ, qs.Perm (List.range nhashes) ∧
    M'.buckets 0 = (M.buckets 0).putAll (leafPlacement L H base) qs
  other : M'.nslots 1 = M.nslots 1

/-- A round: all its pairs are placed, in some order, and the counters it read are cleared. -/
structure RoundOf (L : Layout) (r : ℕ) (M M' : Memory) : Prop where
  requests : ∃ qs : List (ℕ × ℕ × ℕ), qs.Perm (M.roundPairs L r) ∧
    M'.buckets (r % 2) = (M.buckets (r % 2)).putAll (M.roundPlacement L r) qs
  source : M'.heap ((r - 1) % 2) = M.heap ((r - 1) % 2)
  cleared : ∀ b < nbuckets, M'.nslots ((r - 1) % 2) b = 0

/-- The memory after each of the rounds `0 .. 8`. -/
structure Rounds (L : Layout) (H : Blake2b) (base : Blake2bState) (E : ℕ → Memory) : Prop where
  start : ∃ M : Memory, (∀ b < nbuckets, M.nslots 0 b = 0) ∧ (∀ b < nbuckets, M.nslots 1 b = 0) ∧
    LeavesOf L H base M (E 0)
  round : ∀ r < 8, RoundOf L (r + 1) (E r) (E (r + 1))

/-- No bucket of any round is asked for more than it holds. -/
def NoOverflow (E : ℕ → Memory) : Prop := ∀ r ≤ 8, ∀ b < nbuckets, (E r).nslots (r % 2) b ≤ nslotsMax

/-- The layers as the tree nodes in the heaps link them. -/
def forestOf (L : Layout) (E : ℕ → Memory) : Forest ℕ where
  count r b := min ((E r).nslots (r % 2) b) nslotsMax
  leafAt b s := getindex ((E 0).heap 0 b s (L.tag 0))
  pairAt r b s := decode ((E r).heap (r % 2) b s (L.tag r))

section Layers
variable {L : Layout} {H : Blake2b} {base : Blake2bState} {E : ℕ → Memory}

/-- Layer `r` as the next round finds it. -/
structure LayerOk (L : Layout) (H : Blake2b) (base : Blake2bState) (E : ℕ → Memory) (r : ℕ) : Prop where
  holds : ∀ b < nbuckets, ∀ s < (forestOf L E).count r b,
    Holds (r + 1) (slotByte ((E r).prevHash L (r + 1) b s)) ((forestOf L E).hash (scheme H base) r b s)
  bucket : ∀ b < nbuckets, ∀ s < (forestOf L E).count r b,
    bucketOf r ((forestOf L E).hash (scheme H base) r b s) = b
  empty : ∀ b < nbuckets, (E r).nslots ((r + 1) % 2) b = 0

structure LeafServed (L : Layout) (H : Blake2b) (base : Blake2bState) (E : ℕ → Memory) (qs : List ℕ) : Prop where
  nodup : qs.Nodup
  mem : ∀ i, i ∈ qs ↔ i ∈ leafSet
  entry : ∀ b < nbuckets, ∀ s < (forestOf L E).count 0 b,
    ((leafPlacement L H base).at b qs)[s]? = some ((forestOf L E).leafAt b s) ∧
      Holds 1 (slotByte ((E 0).prevHash L 1 b s)) (leafHash H base ((forestOf L E).leafAt b s))
  count : ∀ b < nbuckets, (E 0).nslots 0 b = ((leafPlacement L H base).at b qs).length

theorem leafKey (i : ℕ) :
    (leafPlacement L H base).key i = bucketOf 0 (leafHash H base i) := bucketid0_eq _

theorem leafServed_of {M : Memory} (hM0 : ∀ b < nbuckets, M.nslots 0 b = 0) {qs : List ℕ}
    (hperm : qs.Perm (List.range nhashes))
    (hput : (E 0).buckets 0 = (M.buckets 0).putAll (leafPlacement L H base) qs) :
    LeafServed L H base E qs := by
  have hlen : qs.length < (leafPlacement L H base).modulus := by
    rw [hperm.length_eq, List.length_range]
    exact (by decide : nhashes < 2 ^ 32)
  have hcount : (E 0).nslots 0 = ((M.buckets 0).putAll (leafPlacement L H base) qs).count :=
    congrArg Buckets.count hput
  have hslot : (E 0).heap 0 = ((M.buckets 0).putAll (leafPlacement L H base) qs).slot :=
    congrArg Buckets.slot hput
  have hmem : ∀ i, i ∈ qs ↔ i ∈ leafSet := fun i => by rw [hperm.mem_iff, List.mem_range]; rfl
  refine ⟨hperm.nodup_iff.mpr List.nodup_range, hmem, fun b hb s hs => ?_, fun b hb => ?_⟩
  · have hs' : s < min (((M.buckets 0).putAll (leafPlacement L H base) qs).count b) nslotsMax := by
      rw [← hcount]; exact hs
    obtain ⟨i, hi, hwrite⟩ := Buckets.served_of_lt (hM0 b hb) hlen hs'
    rw [← hslot] at hwrite
    have hilt : i < nhashes := (hmem i).mp (Buckets.mem_of_at hi).1
    have hleaf : (forestOf L E).leafAt b s = i := by
      have htag : (E 0).heap 0 b s (L.tag 0) = BitVec.ofNat 32 i := by rw [hwrite]; exact leafWrite_tag
      have h22 : nhashes = 2 ^ 22 := rfl
      rw [forestOf]
      dsimp only
      rw [htag]
      exact Nat.mod_eq_of_lt (by omega)
    rw [hleaf]
    refine ⟨hi, ?_⟩
    have hprev : (E 0).prevHash L 1 b s = fun w => leafWrite L (leafHash H base i) i (M.heap 0 b s) (L.hash 0 + w) :=
      funext fun w => congrFun hwrite (L.hash 0 + w)
    rw [hprev]
    exact holds_leafWrite _ _ _
  · rw [hcount]
    exact Buckets.count_putAll (hM0 b hb) hlen

theorem Rounds.leafServed (hE : Rounds L H base E) : ∃ qs, LeafServed L H base E qs := by
  obtain ⟨M, hM0, -, ⟨qs, hperm, hput⟩, -⟩ := hE.start
  exact ⟨qs, leafServed_of hM0 hperm hput⟩

theorem Rounds.layer_zero (hE : Rounds L H base E) : LayerOk L H base E 0 := by
  obtain ⟨qs, hserved⟩ := hE.leafServed
  obtain ⟨M, -, hM1, hleaves⟩ := hE.start
  refine ⟨fun b hb s hs => (hserved.entry b hb s hs).2, fun b hb s hs => ?_, fun b hb => ?_⟩
  · exact (leafKey (L := L) _).symm.trans (Buckets.mem_of_at (hserved.entry b hb s hs).1).2
  · rw [hleaves.other]
    exact hM1 b hb

theorem mem_roundPairs_iff {r : ℕ} (hr : r < 9) (hok : LayerOk L H base E r) {p : ℕ × ℕ × ℕ} :
    p ∈ (E r).roundPairs L (r + 1) ↔ (forestOf L E).IsPair (scheme H base) r p := by
  have hsize : ∀ b, (E r).bsize (r + 1) b = (forestOf L E).count r b := fun b => rfl
  have hiff : p.1 < nbuckets → p.2.1 < p.2.2 → p.2.2 < (forestOf L E).count r p.1 →
      ((E r).rest L (r + 1) p.1 p.2.1 = (E r).rest L (r + 1) p.1 p.2.2 ∧
        keeps (r + 1) ((E r).prevHash L (r + 1) p.1 p.2.1) ((E r).prevHash L (r + 1) p.1 p.2.2) = true ↔
      Meets r ((forestOf L E).hash (scheme H base) r p.1 p.2.1)
        ((forestOf L E).hash (scheme H base) r p.1 p.2.2)) := by
    intro hb hlt hs
    have hb0 := hok.holds p.1 hb p.2.1 (Nat.lt_trans hlt hs)
    have hb1 := hok.holds p.1 hb p.2.2 hs
    rw [keeps_iff hr hb0 hb1, Memory.rest, Memory.rest, xhash_eq (by omega) (by omega) hb0,
      xhash_eq (by omega) (by omega) hb1]
    rfl
  rw [mem_roundPairs, hsize]
  constructor
  · rintro ⟨hb, hlt, hs, hrest⟩
    exact ⟨hb, hlt, hs, (hiff hb hlt hs).mp hrest⟩
  · rintro ⟨hb, hlt, hs, hmeets⟩
    exact ⟨hb, hlt, hs, (hiff hb hlt hs).mpr hmeets⟩

structure Served (L : Layout) (H : Blake2b) (base : Blake2bState) (E : ℕ → Memory) (r : ℕ)
    (qs : List (ℕ × ℕ × ℕ)) : Prop where
  nodup : qs.Nodup
  mem : ∀ p, p ∈ qs ↔ (forestOf L E).IsPair (scheme H base) r p
  key : ∀ p ∈ qs, ((E r).roundPlacement L (r + 1)).key p =
    bucketOf (r + 1) (((forestOf L E).pairTree r p).sum (leafHash H base))
  entry : ∀ b < nbuckets, ∀ s < (forestOf L E).count (r + 1) b,
    (((E r).roundPlacement L (r + 1)).at b qs)[s]? = some ((forestOf L E).pairAt (r + 1) b s) ∧
      Holds (r + 2) (slotByte ((E (r + 1)).prevHash L (r + 2) b s))
        ((forestOf L E).hash (scheme H base) (r + 1) b s)
  count : ∀ b < nbuckets, (E (r + 1)).nslots ((r + 1) % 2) b =
    (((E r).roundPlacement L (r + 1)).at b qs).length

theorem LayerOk.served {r : ℕ} (hok : LayerOk L H base E r) (hr : r < 8) {qs : List (ℕ × ℕ × ℕ)}
    (hperm : qs.Perm ((E r).roundPairs L (r + 1)))
    (hput : (E (r + 1)).buckets ((r + 1) % 2) =
      ((E r).buckets ((r + 1) % 2)).putAll ((E r).roundPlacement L (r + 1)) qs) : Served L H base E r qs := by
  set P := (E r).roundPlacement L (r + 1) with hP
  have hlen : qs.length < P.modulus := by
    rw [hperm.length_eq]
    exact length_roundPairs_lt
  have hcount : (E (r + 1)).nslots ((r + 1) % 2) = (((E r).buckets ((r + 1) % 2)).putAll P qs).count :=
    congrArg Buckets.count hput
  have hslot : (E (r + 1)).heap ((r + 1) % 2) = (((E r).buckets ((r + 1) % 2)).putAll P qs).slot :=
    congrArg Buckets.slot hput
  have hmem : ∀ p, p ∈ qs ↔ (forestOf L E).IsPair (scheme H base) r p := fun p => by
    rw [hperm.mem_iff, mem_roundPairs_iff (by omega) hok]
  have hholds : ∀ p ∈ qs,
      Holds (r + 1) (slotByte ((E r).prevHash L (r + 1) p.1 p.2.1))
        ((forestOf L E).hash (scheme H base) r p.1 p.2.1) ∧
      Holds (r + 1) (slotByte ((E r).prevHash L (r + 1) p.1 p.2.2))
        ((forestOf L E).hash (scheme H base) r p.1 p.2.2) := fun p hp => by
    have hpair := (hmem p).mp hp
    exact ⟨hok.holds _ hpair.bucket _ hpair.stored_left, hok.holds _ hpair.bucket _ hpair.stored⟩
  refine ⟨hperm.nodup_iff.mpr nodup_roundPairs, hmem, fun p hp => ?_, fun b hb s hs => ?_,
    fun b hb => ?_⟩
  · exact xorbucketid_eq (by omega) (by omega) (hholds p hp).1 (hholds p hp).2
  · have hs' : s < min ((((E r).buckets ((r + 1) % 2)).putAll P qs).count b) P.capacity := by
      rw [← hcount]; exact hs
    obtain ⟨p, hp, hwrite⟩ := Buckets.served_of_lt (hok.empty b hb) hlen hs'
    rw [← hslot] at hwrite
    have hpqs := (Buckets.mem_of_at hp).1
    have hpair := (hmem p).mp hpqs
    have hcap : ∀ b, (forestOf L E).count r b ≤ nslotsMax := fun b => Nat.min_le_right _ _
    have hpairAt : (forestOf L E).pairAt (r + 1) b s = p := by
      have htag : (E (r + 1)).heap ((r + 1) % 2) b s (L.tag (r + 1)) = tree p.1 p.2.1 p.2.2 := by
        rw [hwrite]; exact entryWrite_tag
      rw [forestOf]
      dsimp only
      rw [htag]
      exact decode_tree hpair.bucket (Nat.lt_of_lt_of_le hpair.stored_left (hcap _))
        (Nat.lt_of_lt_of_le hpair.stored (hcap _))
    refine ⟨by rw [hpairAt]; exact hp, ?_⟩
    have hprev : (E (r + 1)).prevHash L (r + 2) b s = fun w =>
        entryWrite L (r + 1) ((E r).prevHash L (r + 1) p.1 p.2.1) ((E r).prevHash L (r + 1) p.1 p.2.2)
          (tree p.1 p.2.1 p.2.2) ((E r).heap ((r + 1) % 2) b s) (L.hash (r + 1) + w) :=
      funext fun w => congrFun hwrite (L.hash (r + 1) + w)
    have hhash : (forestOf L E).hash (scheme H base) (r + 1) b s =
        (forestOf L E).hash (scheme H base) r p.1 p.2.1 + (forestOf L E).hash (scheme H base) r p.1 p.2.2 := by
      rw [Forest.hash, Forest.tree_succ, hpairAt]
      rfl
    rw [hprev, hhash]
    exact holds_entryWrite hr (hholds p hpqs).1 (hholds p hpqs).2
  · rw [hcount]
    exact Buckets.count_putAll (hok.empty b hb) hlen

theorem Rounds.served (hE : Rounds L H base E) {r : ℕ} (hr : r < 8) (hok : LayerOk L H base E r) :
    ∃ qs, Served L H base E r qs := by
  obtain ⟨⟨qs, hperm, hput⟩, -, -⟩ := hE.round r hr
  exact ⟨qs, hok.served hr hperm hput⟩

theorem Rounds.layer (hE : Rounds L H base E) {r : ℕ} (hr : r ≤ 8) : LayerOk L H base E r := by
  induction r with
  | zero => exact hE.layer_zero
  | succ r ih =>
    have hok := ih (by omega)
    obtain ⟨qs, hserved⟩ := hE.served (by omega) hok
    refine ⟨fun b hb s hs => (hserved.entry b hb s hs).2, fun b hb s hs => ?_, fun b hb => ?_⟩
    · obtain ⟨hmem, hkey⟩ := Buckets.mem_of_at (hserved.entry b hb s hs).1
      rw [hserved.key _ hmem] at hkey
      exact hkey
    · have hcleared := (hE.round r (by omega)).cleared b hb
      rwa [Nat.add_sub_cancel, show r % 2 = (r + 1 + 1) % 2 by omega] at hcleared

theorem Rounds.sound (hE : Rounds L H base E) : (forestOf L E).Sound (scheme H base) leafSet 8 where
  leaf b s hb hs := by
    obtain ⟨qs, hserved⟩ := hE.leafServed
    exact (hserved.mem _).mp (Buckets.mem_of_at (hserved.entry b hb s hs).1).1
  pair r hr b s hb hs := by
    obtain ⟨qs, hserved⟩ := hE.served hr (hE.layer (by omega))
    exact (hserved.mem _).mp (Buckets.mem_of_at (hserved.entry b hb s hs).1).1
  bucket r hr b s hb hs := (hE.layer hr).bucket b hb s hs

theorem Rounds.distinct (hE : Rounds L H base E) :
    Forest.Distinct (scheme H base) (forestOf L E) 8 where
  leaf := by
    rintro ⟨b, s⟩ ⟨b', s'⟩ hs hs' hb hb' heq
    obtain ⟨qs, hserved⟩ := hE.leafServed
    have h := (hserved.entry b hb s hs).1
    have h' := (hserved.entry b' hb' s' hs').1
    rw [show (forestOf L E).leafAt b s = (forestOf L E).leafAt b' s' from heq] at h
    exact Prod.ext_iff.mpr (Buckets.at_unique hserved.nodup h h')
  pair := by
    rintro r hr ⟨b, s⟩ ⟨b', s'⟩ hs hs' hb hb' heq
    obtain ⟨qs, hserved⟩ := hE.served hr (hE.layer (by omega))
    have h := (hserved.entry b hb s hs).1
    have h' := (hserved.entry b' hb' s' hs').1
    rw [show (forestOf L E).pairAt (r + 1) b s = (forestOf L E).pairAt (r + 1) b' s' from heq] at h
    exact Prod.ext_iff.mpr (Buckets.at_unique hserved.nodup h h')

theorem Rounds.complete_leaf (hE : Rounds L H base E) {i : ℕ} (hi : i ∈ leafSet)
    (hover : (E 0).nslots 0 (bucketOf 0 (leafHash H base i)) ≤ nslotsMax) :
    ∃! s, s < (forestOf L E).count 0 (bucketOf 0 (leafHash H base i)) ∧
      (forestOf L E).leafAt (bucketOf 0 (leafHash H base i)) s = i := by
  obtain ⟨qs, hserved⟩ := hE.leafServed
  have hb := bucketOf_lt 0 (leafHash H base i)
  obtain ⟨s, hs, huniq⟩ := Buckets.existsUnique_at (P := leafPlacement L H base) hserved.nodup
    ((hserved.mem i).mpr hi)
  rw [leafKey] at hs
  simp only [leafKey] at huniq
  have hslt : s < (forestOf L E).count 0 (bucketOf 0 (leafHash H base i)) := by
    have h1 := hserved.count _ hb
    have h3 := (List.getElem?_eq_some_iff.mp hs).1
    change s < min ((E 0).nslots 0 _) nslotsMax
    omega
  refine ⟨s, ⟨hslt, ?_⟩, fun t ht => huniq t ?_⟩
  · exact (Option.some.inj (hs.symm.trans (hserved.entry _ hb s hslt).1)).symm
  · exact (hserved.entry _ hb t ht.1).1.trans (congrArg some ht.2)

theorem Rounds.complete (hE : Rounds L H base E) (hover : NoOverflow E) :
    (forestOf L E).Complete (scheme H base) leafSet 8 where
  leaf i hi := hE.complete_leaf hi (hover 0 (Nat.zero_le 8) _ (bucketOf_lt 0 _))
  pair r hr p hp := by
    obtain ⟨qs, hserved⟩ := hE.served hr (hE.layer (by omega))
    have hpqs := (hserved.mem p).mpr hp
    have hb := bucketOf_lt (r + 1) (((forestOf L E).pairTree r p).sum (leafHash H base))
    obtain ⟨s, hs, huniq⟩ := Buckets.existsUnique_at (P := (E r).roundPlacement L (r + 1)) hserved.nodup hpqs
    simp only [hserved.key p hpqs] at hs huniq
    have hslt : s < (forestOf L E).count (r + 1)
        (bucketOf (r + 1) (((forestOf L E).pairTree r p).sum (leafHash H base))) := by
      have h1 := hserved.count _ hb
      have h2 := hover (r + 1) (by omega) _ hb
      have h3 := (List.getElem?_eq_some_iff.mp hs).1
      change s < min ((E (r + 1)).nslots ((r + 1) % 2) _) nslotsMax
      omega
    refine ⟨s, ⟨hslt, ?_⟩, fun t ht => huniq t ?_⟩
    · exact (Option.some.inj (hs.symm.trans (hserved.entry _ hb s hslt).1)).symm
    · exact (hserved.entry _ hb t ht.1).1.trans (congrArg some ht.2)

/-- A tree node stays in its heap until the last round reads it. -/
theorem Rounds.tag_frame (hE : Rounds L H base E) {r r' : ℕ} (hr : r ≤ r') (hr8 : r' ≤ 8)
    (b s : ℕ) : (E r').heap (r % 2) b s (L.tag r) = (E r).heap (r % 2) b s (L.tag r) := by
  induction r' with
  | zero => rw [Nat.le_zero.mp hr]
  | succ r' ih =>
    rcases Nat.lt_or_eq_of_le hr with hlt | rfl
    · rw [← ih (by omega) (by omega)]
      obtain ⟨⟨qs, -, hput⟩, hsource, -⟩ := hE.round r' (by omega)
      by_cases hpar : r % 2 = (r' + 1) % 2
      · have hslot : (E (r' + 1)).heap ((r' + 1) % 2) =
            (((E r').buckets ((r' + 1) % 2)).putAll ((E r').roundPlacement L (r' + 1)) qs).slot :=
          congrArg Buckets.slot hput
        rw [hpar, hslot]
        exact Buckets.putAll_preserves (fun slot : Slot => slot (L.tag r))
          (fun p slot => entryWrite_frame (by omega) hlt hpar) _ qs b s
      · rw [Nat.add_sub_cancel] at hsource
        rw [show r % 2 = r' % 2 by omega, hsource]
    · rfl

/-- The tree nodes as the last round still finds them. -/
theorem Rounds.decode_tag (hE : Rounds L H base E) {r : ℕ} (hr : r ≤ 8) (b s : ℕ) :
    decode ((E 8).heap (r % 2) b s (L.tag r)) = (forestOf L E).pairAt r b s := by
  rw [hE.tag_frame hr (Nat.le_refl 8)]
  rfl

theorem Rounds.getindex_tag (hE : Rounds L H base E) (b s : ℕ) :
    getindex ((E 8).heap 0 b s (L.tag 0)) = (forestOf L E).leafAt b s :=
  congrArg getindex (hE.tag_frame (Nat.zero_le 8) (Nat.le_refl 8) b s)

end Layers
end Aion.Solver
