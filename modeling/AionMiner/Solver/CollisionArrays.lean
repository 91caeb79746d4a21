import AionMiner.Solver.Collisions
import Mathlib.Data.List.GetD

/-! The arrays of `collisiondata` as they are in memory: 16-bit slot numbers, cleared byte by byte,
and indexed within their bounds only. -/

namespace Aion.Solver

section Arrays

abbrev Xslot := BitVec 16

def bytesOf (xs : List Xslot) : List Byte :=
  xs.flatMap fun x => [x.extractLsb' 0 8, x.extractLsb' 8 8]

def ofBytes : List Byte → List Xslot
  | low :: high :: bytes => (high ++ low) :: ofBytes bytes
  | _ => []

/-- `memset` of the first `n` bytes; of the value only the lowest byte is taken. -/
def memset (xs : List Xslot) (c n : ℕ) : List Xslot :=
  ofBytes (List.replicate n (BitVec.ofNat 8 c) ++ (bytesOf xs).drop n)

theorem length_bytesOf (xs : List Xslot) : (bytesOf xs).length = 2 * xs.length := by
  induction xs with
  | nil => rfl
  | cons x xs ih =>
    rw [bytesOf, List.flatMap_cons, List.length_append, ← bytesOf, ih, List.length_cons]
    exact Nat.add_comm _ _

theorem ofBytes_replicate (n : ℕ) (b : Byte) :
    ofBytes (List.replicate (2 * n) b) = List.replicate n (b ++ b) := by
  induction n with
  | zero => rfl
  | succ n ih =>
    rw [Nat.mul_succ, List.replicate_succ, List.replicate_succ, ofBytes, ih, List.replicate_succ]

theorem memset_all (xs : List Xslot) (c : ℕ) :
    memset xs c (2 * xs.length) =
      List.replicate xs.length (BitVec.ofNat 8 c ++ BitVec.ofNat 8 c) := by
  rw [memset, List.drop_of_length_le (length_bytesOf xs).le, List.append_nil, ofBytes_replicate]

end Arrays

/-- `collisiondata`. -/
structure CollisionArrays where
  xhashslots : List Xslot
  nextxhashslot : List Xslot
  nextslot : Xslot
  s0 : ℕ
  length_xhashslots : xhashslots.length = nrests
  length_nextxhashslot : nextxhashslot.length = nslotsMax

namespace CollisionArrays

/-- `static const xslot xnil = ~0`. -/
def nil : Xslot := ~~~0

def clear (cd : CollisionArrays) : CollisionArrays where
  xhashslots := memset cd.xhashslots nil.toNat (nrests * 2)
  nextxhashslot := memset cd.nextxhashslot nil.toNat (nslotsMax * 2)
  nextslot := cd.nextslot
  s0 := cd.s0
  length_xhashslots := by
    rw [← cd.length_xhashslots, Nat.mul_comm, memset_all, List.length_replicate]
  length_nextxhashslot := by
    rw [← cd.length_nextxhashslot, Nat.mul_comm, memset_all, List.length_replicate]

/-- An index beyond an array is left undefined. -/
def addslot (cd : CollisionArrays) (s1 xh : ℕ) : Option CollisionArrays := do
  let nextslot ← cd.xhashslots[xh]?
  if s1 < nslotsMax then
    some
      { nextslot := nextslot
        nextxhashslot := cd.nextxhashslot.set s1 nextslot
        xhashslots := cd.xhashslots.set xh (BitVec.ofNat 16 s1)
        s0 := cd.s0
        length_xhashslots := (List.length_set ..).trans cd.length_xhashslots
        length_nextxhashslot := (List.length_set ..).trans cd.length_nextxhashslot }
  else none

def nextcollision (cd : CollisionArrays) : Bool := cd.nextslot != nil

def slot (cd : CollisionArrays) : Option (ℕ × CollisionArrays) := do
  let s0 := cd.nextslot.toNat
  let nextslot ← cd.nextxhashslot[s0]?
  some (s0, { cd with nextslot := nextslot, s0 := s0 })

/-- The loop `for (; cd.nextcollision();)`; `none` where it does not end within `fuel` tests. -/
def drain : ℕ → CollisionArrays → Option (List ℕ × CollisionArrays)
  | 0, _ => none
  | fuel + 1, cd =>
    if cd.nextcollision then do
      let (s0, cd) ← cd.slot
      let (s0s, cd) ← drain fuel cd
      some (s0 :: s0s, cd)
    else some ([], cd)

/-- What is drained after each slot of a bucket. -/
def collisions (fuel : ℕ) (xh : ℕ → ℕ) (cd : CollisionArrays) :
    ℕ → Option (List (List ℕ) × CollisionArrays)
  | 0 => some ([], cd.clear)
  | s1 + 1 => do
    let (lists, cd) ← collisions fuel xh cd s1
    let cd ← cd.addslot s1 (xh s1)
    let (s0s, cd) ← cd.drain fuel
    some (lists ++ [s0s], cd)

/-- The arrays as functions. -/
def toCollisiondata (cd : CollisionArrays) : Collisiondata where
  xhashslots := fun x => (cd.xhashslots.getD x nil).toNat
  nextxhashslot := fun s => (cd.nextxhashslot.getD s nil).toNat
  nextslot := cd.nextslot.toNat

theorem toNat_nil : nil.toNat = xnil := rfl

theorem toCollisiondata_clear (cd : CollisionArrays) :
    cd.clear.toCollisiondata = cd.toCollisiondata.clear := by
  have hbyte : BitVec.ofNat 8 nil.toNat ++ BitVec.ofNat 8 nil.toNat = nil := rfl
  have hnil (xs : List Xslot) (i : ℕ) :
      ((memset xs nil.toNat (xs.length * 2)).getD i nil).toNat = xnil := by
    rw [Nat.mul_comm, memset_all, hbyte, List.getD_eq_getElem?_getD,
      List.getElem?_getD_replicate_default_eq]
    exact toNat_nil
  rw [toCollisiondata, clear, Collisiondata.clear]
  congr 1
  · funext x
    dsimp only
    rw [← cd.length_xhashslots]
    exact hnil cd.xhashslots x
  · funext s
    dsimp only
    rw [← cd.length_nextxhashslot]
    exact hnil cd.nextxhashslot s

theorem toNat_getD_set {xs : List Xslot} {i : ℕ} (h : i < xs.length) (x : Xslot) :
    (fun j => ((xs.set i x).getD j nil).toNat) =
      Function.update (fun j => (xs.getD j nil).toNat) i x.toNat := by
  funext j
  by_cases hj : j = i
  · subst hj
    rw [Function.update_self, List.getD_eq_getElem _ _ (by rw [List.length_set]; exact h),
      List.getElem_set_self]
  · rw [Function.update_of_ne hj, List.getD_eq_getElem?_getD, List.getElem?_set_ne (Ne.symm hj),
      List.getD_eq_getElem?_getD]

theorem map_addslot (cd : CollisionArrays) {s1 xh : ℕ} (hs1 : s1 < nslotsMax) (hxh : xh < nrests) :
    (cd.addslot s1 xh).map toCollisiondata = some (cd.toCollisiondata.addslot s1 xh) := by
  have hlt : xh < cd.xhashslots.length := cd.length_xhashslots.symm ▸ hxh
  have hget : cd.xhashslots.getD xh nil = cd.xhashslots[xh] := List.getD_eq_getElem _ _ hlt
  rw [addslot, List.getElem?_eq_getElem hlt, Option.bind_eq_bind, Option.bind_some, if_pos hs1,
    Option.map_some, toCollisiondata, Collisiondata.addslot]
  congr 2
  · rw [toNat_getD_set hlt, BitVec.toNat_ofNat]
    rfl
  · rw [toNat_getD_set (cd.length_nextxhashslot.symm ▸ hs1), ← hget]
    rfl
  · rw [← hget]
    rfl

theorem nextcollision_eq (cd : CollisionArrays) :
    cd.nextcollision = cd.toCollisiondata.nextcollision := by
  have hiff : cd.nextslot ≠ nil ↔ cd.nextslot.toNat ≠ xnil := BitVec.toNat_ne_iff_ne.symm
  rw [nextcollision, Collisiondata.nextcollision, Bool.eq_iff_iff, bne_iff_ne, bne_iff_ne]
  exact hiff

theorem map_slot (cd : CollisionArrays) (h : cd.nextslot.toNat < nslotsMax) :
    cd.slot.map (Prod.map id toCollisiondata) = some cd.toCollisiondata.slot := by
  have hlt : cd.nextslot.toNat < cd.nextxhashslot.length := cd.length_nextxhashslot.symm ▸ h
  have hget : cd.nextxhashslot.getD cd.nextslot.toNat nil = cd.nextxhashslot[cd.nextslot.toNat] :=
    List.getD_eq_getElem _ _ hlt
  rw [slot, List.getElem?_eq_getElem hlt, ← hget]
  rfl

/-- A loop that ends and stays within the bounds is the same on the arrays. -/
theorem map_drain {fuel : ℕ} (cd : CollisionArrays)
    (hslots : ∀ s ∈ (cd.toCollisiondata.drain fuel).1, s < nslotsMax)
    (hend : (cd.toCollisiondata.drain fuel).2.nextslot = xnil) :
    (cd.drain (fuel + 1)).map (Prod.map id toCollisiondata) =
      some (cd.toCollisiondata.drain fuel) := by
  induction fuel generalizing cd with
  | zero =>
    have hstop : cd.nextcollision = false := by
      have heq : cd.toCollisiondata.nextslot = xnil := hend
      rw [nextcollision_eq, Collisiondata.nextcollision, heq]
      rfl
    rw [drain, if_neg (by rw [hstop]; exact Bool.false_ne_true)]
    rfl
  | succ fuel ih =>
    rw [drain, nextcollision_eq]
    rw [Collisiondata.drain] at hslots hend ⊢
    split_ifs at hslots hend ⊢ with hnext
    · obtain ⟨⟨s0, cd'⟩, hslot, hmap⟩ :=
        Option.map_eq_some_iff.mp (cd.map_slot (hslots _ List.mem_cons_self))
      rw [← hmap] at hslots hend ⊢
      obtain ⟨⟨s0s, cd''⟩, hdrain, hmap'⟩ := Option.map_eq_some_iff.mp
        (ih cd' (fun s hs => hslots s (List.mem_cons_of_mem _ hs)) hend)
      rw [hslot, Option.bind_eq_bind, Option.bind_some]
      dsimp only [Prod.map, id]
      rw [hdrain, ← hmap']
      rfl
    · rfl

end CollisionArrays

theorem earlier_eq_filter (xh : ℕ → ℕ) (x n : ℕ) :
    earlier xh x n = (List.range n).reverse.filter fun s => xh s = x := by
  induction n with
  | zero => rfl
  | succ n ih =>
    rw [earlier, List.range_succ, List.reverse_append, List.reverse_singleton,
      List.singleton_append, List.filter_cons, ih]
    simp only [decide_eq_true_eq]

namespace CollisionArrays

/-- One slot of the bucket: it is added, and the list it is put in front of is drained. -/
theorem exists_visit {xh : ℕ → ℕ} {s1 fuel : ℕ} {cd : CollisionArrays}
    (h : Linked xh s1 cd.toCollisiondata) (hs1 : s1 < nslotsMax) (hxh : xh s1 < nrests)
    (hfuel : s1 < fuel) : ∃ cd', (do
      let cd ← cd.addslot s1 (xh s1)
      cd.drain fuel) = some (earlier xh (xh s1) s1, cd') ∧
      Linked xh (s1 + 1) cd'.toCollisiondata := by
  obtain ⟨fuel, rfl⟩ := Nat.exists_eq_add_of_lt hfuel
  have hnil : s1 < xnil := Nat.lt_trans hs1 (by decide)
  have hadd := h.addslot hnil
  obtain ⟨cd₁, hcd₁, hmap⟩ := Option.map_eq_some_iff.mp (cd.map_addslot hs1 hxh)
  have hdrain : cd₁.toCollisiondata.drain (s1 + fuel) =
      (earlier xh (xh s1) s1, { cd.toCollisiondata.addslot s1 (xh s1) with nextslot := xnil }) := by
    rw [hmap]
    exact drain_eq (Nat.le_add_right s1 fuel) hnil.le
      (fun s hs => hadd.links s (Nat.lt_succ_of_lt hs)) (h.heads _)
  have hslots : ∀ s ∈ (cd₁.toCollisiondata.drain (s1 + fuel)).1, s < nslotsMax := by
    intro s hs
    rw [hdrain] at hs
    exact Nat.lt_trans (mem_earlier.mp hs).1 hs1
  have hend : (cd₁.toCollisiondata.drain (s1 + fuel)).2.nextslot = xnil := by
    rw [hdrain]
  obtain ⟨⟨s0s, cd₂⟩, hrun, hresult⟩ := Option.map_eq_some_iff.mp (cd₁.map_drain hslots hend)
  rw [hdrain] at hresult
  refine ⟨cd₂, ?_, ?_⟩
  · rw [hcd₁, Option.bind_eq_bind, Option.bind_some, hrun]
    exact congrArg (fun s0s => some (s0s, cd₂)) (Prod.mk.inj hresult).1
  · rw [(Prod.mk.inj hresult).2]
    exact ⟨hadd.heads, hadd.links⟩

theorem exists_collisions (cd : CollisionArrays) {xh : ℕ → ℕ} {n fuel : ℕ} (hn : n ≤ nslotsMax)
    (hxh : ∀ s < n, xh s < nrests) (hfuel : n ≤ fuel) :
    ∃ cd', collisions fuel xh cd n =
      some ((List.range n).map fun s1 => earlier xh (xh s1) s1, cd') ∧
      Linked xh n cd'.toCollisiondata := by
  induction n with
  | zero => exact ⟨cd.clear, rfl, cd.toCollisiondata_clear ▸ linked_clear cd.toCollisiondata⟩
  | succ n ih =>
    obtain ⟨cd₁, hrun, hlinked⟩ :=
      ih (by omega) (fun s hs => hxh s (Nat.lt_succ_of_lt hs)) (by omega)
    obtain ⟨cd₂, hvisit, hnext⟩ := exists_visit hlinked hn (hxh n (Nat.lt_succ_self n)) hfuel
    refine ⟨cd₂, ?_, hnext⟩
    obtain ⟨cd', hadd, hdrain⟩ := Option.bind_eq_some_iff.mp hvisit
    rw [collisions, hrun, Option.bind_eq_bind, Option.bind_some]
    dsimp only
    rw [hadd, Option.bind_eq_bind, Option.bind_some, hdrain, List.range_succ, List.map_append]
    rfl

/-- After each slot the loop ends, and has the slots before it with the same rest, the last one
first. -/
theorem collisions_complete (cd : CollisionArrays) {xh : ℕ → ℕ} {n fuel : ℕ} (hn : n ≤ nslotsMax)
    (hxh : ∀ s < n, xh s < nrests) (hfuel : n ≤ fuel) :
    (collisions fuel xh cd n).map Prod.fst =
      some ((List.range n).map fun s1 =>
        (List.range s1).reverse.filter fun s0 => xh s0 = xh s1) := by
  obtain ⟨cd', hrun, -⟩ := exists_collisions cd hn hxh hfuel
  rw [hrun, Option.map_some]
  apply congrArg some
  exact List.map_congr_left fun s1 _ => earlier_eq_filter xh (xh s1) s1

def zeros : CollisionArrays where
  xhashslots := List.replicate nrests 0
  nextxhashslot := List.replicate nslotsMax 0
  nextslot := 0
  s0 := 0
  length_xhashslots := List.length_replicate
  length_nextxhashslot := List.length_replicate

theorem collisions_five :
    (collisions 5 (fun s => s % 2) zeros 5).map Prod.fst = some [[], [], [0], [1], [2, 0]] :=
  collisions_complete zeros (by decide) (by decide) le_rfl

end CollisionArrays
end Aion.Solver
