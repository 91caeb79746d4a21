import AionMiner.Solver.Memory
import Mathlib.Data.List.Lemmas
import Mathlib.Data.List.Nodup

/-! `collisiondata`: lists of earlier slots with equal rest bits, kept as linked
lists through two arrays, and the loop over a bucket that drains them. -/

namespace Aion.Solver

structure Collisiondata where
  xhashslots : ℕ → ℕ
  nextxhashslot : ℕ → ℕ
  nextslot : ℕ

/-- `~0` as `u16`. -/
def xnil : ℕ := 2 ^ 16 - 1

namespace Collisiondata

/-- `memset` of both arrays with the byte `0xff`. -/
def clear (cd : Collisiondata) : Collisiondata :=
  { cd with xhashslots := fun _ => xnil, nextxhashslot := fun _ => xnil }

def addslot (cd : Collisiondata) (s1 xh : ℕ) : Collisiondata where
  nextslot := cd.xhashslots xh
  nextxhashslot := Function.update cd.nextxhashslot s1 (cd.xhashslots xh)
  xhashslots := Function.update cd.xhashslots xh (s1 % 2 ^ 16)

def nextcollision (cd : Collisiondata) : Bool := cd.nextslot != xnil

def slot (cd : Collisiondata) : ℕ × Collisiondata :=
  (cd.nextslot, { cd with nextslot := cd.nextxhashslot cd.nextslot })

/-- The loop `for (; cd.nextcollision();)`, with the slots it visits. -/
def drain : ℕ → Collisiondata → List ℕ × Collisiondata
  | 0, cd => ([], cd)
  | fuel + 1, cd =>
    if cd.nextcollision then
      let (s0, cd) := cd.slot
      let (s0s, cd) := drain fuel cd
      (s0 :: s0s, cd)
    else ([], cd)

end Collisiondata

/-- The loop over the slots `s1` of a bucket of size `bsize`; `body s0 s1` handles one collision. -/
def bucketLoop {σ : Type*} (xh : σ → ℕ → ℕ) (body : ℕ → ℕ → σ → σ) (bsize : ℕ) (cd : Collisiondata) (e : σ) : σ :=
  ((List.range bsize).foldl (fun (st : σ × Collisiondata) s1 =>
    let cd := st.2.addslot s1 (xh st.1 s1)
    let (s0s, cd) := cd.drain nslotsMax
    (s0s.foldl (fun e s0 => body s0 s1 e) st.1, cd)) (e, cd.clear)).1

section Chains
variable (xh : ℕ → ℕ) (x : ℕ)

def lastBelow : ℕ → ℕ
  | 0 => xnil
  | n + 1 => if xh n = x then n else lastBelow n

/-- The slots below `n` with rest `x`, last one first. -/
def earlier : ℕ → List ℕ
  | 0 => []
  | n + 1 => if xh n = x then n :: earlier n else earlier n

variable {xh x}

theorem mem_earlier {n s : ℕ} : s ∈ earlier xh x n ↔ s < n ∧ xh s = x := by
  induction n with
  | zero => simp [earlier]
  | succ n ih =>
    rw [earlier]
    split
    · next h =>
      rw [List.mem_cons, ih]
      constructor
      · rintro (rfl | hs)
        · exact ⟨Nat.lt_succ_self _, h⟩
        · exact ⟨Nat.lt_succ_of_lt hs.1, hs.2⟩
      · intro hs
        rcases Nat.lt_succ_iff_lt_or_eq.mp hs.1 with hlt | heq
        · exact Or.inr ⟨hlt, hs.2⟩
        · exact Or.inl heq
    · next h =>
      rw [ih]
      refine ⟨fun hs => ⟨Nat.lt_succ_of_lt hs.1, hs.2⟩, fun hs => ⟨?_, hs.2⟩⟩
      rcases Nat.lt_succ_iff_lt_or_eq.mp hs.1 with hlt | rfl
      · exact hlt
      · exact absurd hs.2 h

theorem pairwise_earlier (n : ℕ) : (earlier xh x n).Pairwise (· > ·) := by
  induction n with
  | zero => exact List.Pairwise.nil
  | succ n ih =>
    rw [earlier]
    split
    · exact List.pairwise_cons.mpr ⟨fun s hs => (mem_earlier.mp hs).1, ih⟩
    · exact ih

theorem length_earlier_le (n : ℕ) : (earlier xh x n).length ≤ n := by
  induction n with
  | zero => exact Nat.le_refl 0
  | succ n ih =>
    rw [earlier]
    split
    · rw [List.length_cons]; omega
    · omega

/-- The arrays after slots `0 .. n - 1` were added. -/
structure Linked (xh : ℕ → ℕ) (n : ℕ) (cd : Collisiondata) : Prop where
  heads : ∀ x, cd.xhashslots x = lastBelow xh x n
  links : ∀ s < n, cd.nextxhashslot s = lastBelow xh (xh s) s

theorem linked_clear (cd : Collisiondata) : Linked xh 0 cd.clear :=
  ⟨fun _ => rfl, fun s hs => absurd hs (Nat.not_lt_zero s)⟩

theorem Linked.addslot {n : ℕ} {cd : Collisiondata} (h : Linked xh n cd) (hn : n < xnil) :
    Linked xh (n + 1) (cd.addslot n (xh n)) := by
  refine ⟨fun x => ?_, fun s hs => ?_⟩
  · rw [Collisiondata.addslot, lastBelow]
    dsimp only
    by_cases hx : xh n = x
    · subst hx
      rw [if_pos rfl, Function.update_self, Nat.mod_eq_of_lt (by rw [xnil] at hn; omega)]
    · rw [if_neg hx, Function.update_of_ne (Ne.symm hx), h.heads]
  · rw [Collisiondata.addslot]
    dsimp only
    rcases Nat.lt_succ_iff_lt_or_eq.mp hs with hs | rfl
    · rw [Function.update_of_ne (Nat.ne_of_lt hs), h.links s hs]
    · rw [Function.update_self, h.heads]

theorem drain_eq {cd : Collisiondata} {n fuel : ℕ} (hfuel : n ≤ fuel) (hn : n ≤ xnil)
    (hlinks : ∀ s < n, cd.nextxhashslot s = lastBelow xh (xh s) s)
    (hnext : cd.nextslot = lastBelow xh x n) :
    cd.drain fuel = (earlier xh x n, { cd with nextslot := xnil }) := by
  -- Draining follows the links down to the end of the list
  induction n generalizing cd fuel with
  | zero =>
    have hnil : cd.nextslot = xnil := hnext
    have hcd : cd = { cd with nextslot := xnil } := by rw [← hnil]
    cases fuel with
    | zero => rw [Collisiondata.drain, ← hcd]; rfl
    | succ fuel =>
      rw [Collisiondata.drain, if_neg (by rw [Collisiondata.nextcollision, hnil]; decide), ← hcd]
      rfl
  | succ n ih =>
    rw [lastBelow] at hnext
    rw [earlier]
    split
    · next hx =>
      rw [if_pos hx] at hnext
      obtain ⟨fuel, rfl⟩ := Nat.exists_eq_add_of_lt (Nat.lt_of_lt_of_le (Nat.succ_pos n) hfuel)
      rw [Nat.zero_add, Collisiondata.drain,
        if_pos (by rw [Collisiondata.nextcollision, hnext]; exact bne_iff_ne.mpr (by omega))]
      have hrec : Collisiondata.drain fuel { cd with nextslot := lastBelow xh x n } = _ :=
        ih (by omega) (by omega) (fun s hs => hlinks s (Nat.lt_succ_of_lt hs)) rfl
      dsimp only [Collisiondata.slot]
      rw [hnext, hlinks n (Nat.lt_succ_self n), hx, hrec]
    · next hx =>
      rw [if_neg hx] at hnext
      exact ih (by omega) (by omega) (fun s hs => hlinks s (Nat.lt_succ_of_lt hs)) hnext

/-- Adding slot `n` and draining yields the earlier slots with its rest, last one first. -/
theorem Linked.visit {n : ℕ} {cd : Collisiondata} (h : Linked xh n cd) (hn : n < nslotsMax) :
    (cd.addslot n (xh n)).drain nslotsMax =
        (earlier xh (xh n) n, { cd.addslot n (xh n) with nextslot := xnil }) ∧
      Linked xh (n + 1) { cd.addslot n (xh n) with nextslot := xnil } := by
  have hnil : n < xnil := Nat.lt_trans hn (by decide)
  have hadd := h.addslot hnil
  refine ⟨?_, hadd.heads, hadd.links⟩
  exact drain_eq hn.le hnil.le (fun s hs => hadd.links s (Nat.lt_succ_of_lt hs)) (h.heads _)

end Chains

def pairsBelow (xh : ℕ → ℕ) (n : ℕ) : List (ℕ × ℕ) :=
  (List.range n).flatMap fun s1 => (earlier xh (xh s1) s1).map fun s0 => (s0, s1)

theorem mem_pairsBelow {xh : ℕ → ℕ} {n : ℕ} {p : ℕ × ℕ} :
    p ∈ pairsBelow xh n ↔ p.1 < p.2 ∧ p.2 < n ∧ xh p.1 = xh p.2 := by
  simp only [pairsBelow, List.mem_flatMap, List.mem_range, List.mem_map, mem_earlier]
  constructor
  · rintro ⟨s1, hs1, s0, ⟨hs0, hx⟩, rfl⟩
    exact ⟨hs0, hs1, hx⟩
  · exact fun ⟨h0, h1, hx⟩ => ⟨p.2, h1, p.1, ⟨h0, hx⟩, rfl⟩

theorem earlier_congr {xh xh' : ℕ → ℕ} (x : ℕ) {n : ℕ} (h : ∀ s < n, xh s = xh' s) :
    earlier xh x n = earlier xh' x n := by
  induction n with
  | zero => rfl
  | succ n ih =>
    rw [earlier, earlier, h n (Nat.lt_succ_self n), ih fun s hs => h s (Nat.lt_succ_of_lt hs)]

theorem pairsBelow_congr {xh xh' : ℕ → ℕ} {n : ℕ} (h : ∀ s < n, xh s = xh' s) :
    pairsBelow xh n = pairsBelow xh' n := by
  -- Only the rests of the slots of the bucket matter
  refine List.flatMap_congr fun s1 hs1 => ?_
  have hs1 := List.mem_range.mp hs1
  rw [h s1 hs1, earlier_congr _ fun s hs => h s (Nat.lt_trans hs hs1)]

theorem pairsBelow_succ (xh : ℕ → ℕ) (n : ℕ) :
    pairsBelow xh (n + 1) = pairsBelow xh n ++ (earlier xh (xh n) n).map fun s0 => (s0, n) := by
  rw [pairsBelow, List.range_succ, List.flatMap_append, List.flatMap_singleton, pairsBelow]

theorem nodup_pairsBelow (xh : ℕ → ℕ) (n : ℕ) : (pairsBelow xh n).Nodup := by
  induction n with
  | zero => exact List.nodup_nil
  | succ n ih =>
    rw [pairsBelow_succ]
    refine List.nodup_append'.mpr ⟨ih, ?_, fun p hp hp' => ?_⟩
    · have hnd : (earlier xh (xh n) n).Nodup := (pairwise_earlier n).imp fun h => Nat.ne_of_gt h
      exact hnd.map fun a b h => congrArg Prod.fst h
    · obtain ⟨s0, -, rfl⟩ := List.mem_map.mp hp'
      exact absurd (mem_pairsBelow.mp hp).2.1 (Nat.lt_irrefl n)

theorem length_pairsBelow_le (xh : ℕ → ℕ) (n : ℕ) : 2 * (pairsBelow xh n).length ≤ n * (n - 1) := by
  induction n with
  | zero => exact Nat.le_refl 0
  | succ n ih =>
    have hle : (earlier xh (xh n) n).length ≤ n := length_earlier_le n
    rw [pairsBelow_succ, List.length_append, List.length_map, Nat.add_sub_cancel, Nat.succ_mul n n]
    have hpred : n * (n - 1) + n = n * n := by
      cases n with
      | zero => rfl
      | succ n => rw [Nat.add_sub_cancel, ← Nat.mul_succ]
    omega

theorem foldl_body_rest {σ : Type*} {xh : σ → ℕ → ℕ} {body : ℕ → ℕ → σ → σ}
    (hxh : ∀ e s0 s1 s, xh (body s0 s1 e) s = xh e s) (s0s : List ℕ) (s1 : ℕ) (e : σ) :
    xh (s0s.foldl (fun e s0 => body s0 s1 e) e) = xh e := by
  induction s0s generalizing e with
  | nil => rfl
  | cons s0 s0s ih =>
    rw [List.foldl_cons, ih]
    exact funext (hxh e s0 s1)

/-- As long as the body leaves the rest bits alone, the loop is a fold over the collisions. -/
theorem bucketLoop_eq {σ : Type*} (xh : σ → ℕ → ℕ) (body : ℕ → ℕ → σ → σ) {n : ℕ}
    (cd : Collisiondata) (e : σ) (hxh : ∀ e s0 s1 s, xh (body s0 s1 e) s = xh e s)
    (hn : n ≤ nslotsMax) :
    bucketLoop xh body n cd e = (pairsBelow (xh e) n).foldl (fun e p => body p.1 p.2 e) e := by
  have key : ∀ m ≤ n, ∃ cd', (List.range m).foldl (fun (st : σ × Collisiondata) s1 =>
      ((((st.2.addslot s1 (xh st.1 s1)).drain nslotsMax).1.foldl (fun e s0 => body s0 s1 e) st.1),
        ((st.2.addslot s1 (xh st.1 s1)).drain nslotsMax).2)) (e, cd.clear) =
        ((pairsBelow (xh e) m).foldl (fun e p => body p.1 p.2 e) e, cd') ∧ Linked (xh e) m cd' ∧
        xh ((pairsBelow (xh e) m).foldl (fun e p => body p.1 p.2 e) e) = xh e := by
    intro m
    induction m with
    | zero => exact fun _ => ⟨cd.clear, rfl, linked_clear cd, rfl⟩
    | succ m ih =>
      intro hm
      obtain ⟨cd', hrun, hlinked, hsame⟩ := ih (by omega)
      obtain ⟨hdrain, hnext⟩ := hlinked.visit (Nat.lt_of_lt_of_le hm hn)
      refine ⟨_, ?_, hnext, ?_⟩
      · rw [List.range_succ, List.foldl_append, hrun, List.foldl_cons, List.foldl_nil]
        dsimp only
        rw [hsame, hdrain, pairsBelow_succ, List.foldl_append, List.foldl_map]
      · rw [pairsBelow_succ, List.foldl_append, List.foldl_map, foldl_body_rest hxh, hsame]
  obtain ⟨cd', hrun, -⟩ := key n (Nat.le_refl n)
  exact congrArg Prod.fst hrun

end Aion.Solver
