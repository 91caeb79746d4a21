import AionMiner.Wagner.Blocks
import Mathlib.Algebra.BigOperators.Group.List.Basic
import Mathlib.Order.Lattice

/-! Wagner's algorithm on an abstract store: layers of buckets whose entries
point at two entries of one bucket of the layer below. Which index vectors the
entries of a layer stand for, and that each stands for one vector only. -/

namespace Aion.Wagner

inductive Tree (ι : Type*) where
  | leaf (i : ι)
  | node (l r : Tree ι)

structure Forest (ι : Type*) where
  count : ℕ → ℕ → ℕ
  leafAt : ℕ → ℕ → ι
  pairAt : ℕ → ℕ → ℕ → ℕ × ℕ × ℕ

namespace Forest
variable {ι : Type*} (F : Forest ι)

def tree : ℕ → ℕ → ℕ → Tree ι
  | 0, b, s => .leaf (F.leafAt b s)
  | h + 1, b, s =>
    let p := F.pairAt (h + 1) b s
    .node (tree h p.1 p.2.1) (tree h p.1 p.2.2)

def pairTree (h : ℕ) (p : ℕ × ℕ × ℕ) : Tree ι := .node (F.tree h p.1 p.2.1) (F.tree h p.1 p.2.2)

theorem tree_succ (h b s : ℕ) : F.tree (h + 1) b s = F.pairTree h (F.pairAt (h + 1) b s) := rfl

end Forest

variable {ι G : Type*} [LinearOrder ι] [Inhabited ι] [AddCommGroup G]

def mergeOrder (a b : List ι) : List ι :=
  if b.headD default < a.headD default then b ++ a else a ++ b

def Tree.order : Tree ι → List ι
  | leaf i => [i]
  | node l r => mergeOrder l.order r.order

def Tree.sum (f : ι → G) : Tree ι → G
  | leaf i => f i
  | node l r => l.sum f + r.sum f

theorem mergeOrder_perm (a b : List ι) : (mergeOrder a b).Perm (a ++ b) := by
  rw [mergeOrder]
  split
  · exact List.perm_append_comm
  · exact List.Perm.refl _

theorem length_mergeOrder (a b : List ι) : (mergeOrder a b).length = a.length + b.length := by
  rw [(mergeOrder_perm a b).length_eq, List.length_append]

theorem mergeOrder_of_lt {a b : List ι} (h : a.headD default < b.headD default) :
    mergeOrder a b = a ++ b ∧ mergeOrder b a = a ++ b := by
  rw [mergeOrder, mergeOrder, if_pos h, if_neg (not_lt_of_gt h)]
  exact ⟨rfl, rfl⟩

theorem mergeOrder_eq_append {a b l r : List ι} (hal : a.length = l.length)
    (hbl : b.length = l.length) (h : mergeOrder a b = l ++ r) :
    (a = l ∧ b = r) ∨ (b = l ∧ a = r) := by
  -- Undoing a merge: the halves are the two lists, in one order or the other
  rw [mergeOrder] at h
  split at h
  · exact Or.inr (List.append_inj h hbl)
  · exact Or.inl (List.append_inj h hal)

theorem Tree.sum_order (f : ι → G) (t : Tree ι) : (t.order.map f).sum = t.sum f := by
  induction t with
  | leaf i => rw [order, List.map_singleton, List.sum_singleton, sum]
  | node l r ihl ihr =>
    rw [order, ((mergeOrder_perm l.order r.order).map f).sum_eq, List.map_append, List.sum_append,
      ihl, ihr, sum]

/-- The leaf values, the bucket an entry of a layer goes to, and the test that joins two entries. -/
structure Scheme (ι G : Type*) where
  leaf : ι → G
  buckets : ℕ
  bucket : ℕ → G → ℕ
  Meets : ℕ → G → G → Prop
  bucket_lt : ∀ h g, bucket h g < buckets
  meets_symm : ∀ {h a b}, Meets h a b → Meets h b a

namespace Forest
variable (S : Scheme ι G) (F : Forest ι)

def hash (h b s : ℕ) : G := (F.tree h b s).sum S.leaf

/-- Two entries of one bucket of layer `h` that the scheme joins. -/
structure IsPair (h : ℕ) (p : ℕ × ℕ × ℕ) : Prop where
  bucket : p.1 < S.buckets
  lt : p.2.1 < p.2.2
  stored : p.2.2 < F.count h p.1
  meets : S.Meets h (F.hash S h p.1 p.2.1) (F.hash S h p.1 p.2.2)

/-- Every entry up to layer `K` stands for a leaf or a pair, and lies in its bucket. -/
structure Sound (leaves : Set ι) (K : ℕ) : Prop where
  leaf : ∀ b s, b < S.buckets → s < F.count 0 b → F.leafAt b s ∈ leaves
  pair : ∀ h < K, ∀ b s, b < S.buckets → s < F.count (h + 1) b → F.IsPair S h (F.pairAt (h + 1) b s)
  bucket : ∀ h ≤ K, ∀ b s, b < S.buckets → s < F.count h b → S.bucket h (F.hash S h b s) = b

/-- Every leaf and every pair up to layer `K` is stored in its bucket, once. -/
structure Complete (leaves : Set ι) (K : ℕ) : Prop where
  leaf : ∀ i ∈ leaves, ∃! s, s < F.count 0 (S.bucket 0 (S.leaf i)) ∧ F.leafAt (S.bucket 0 (S.leaf i)) s = i
  pair : ∀ h < K, ∀ p, F.IsPair S h p →
    ∃! s, s < F.count (h + 1) (S.bucket (h + 1) ((F.pairTree h p).sum S.leaf)) ∧
      F.pairAt (h + 1) (S.bucket (h + 1) ((F.pairTree h p).sum S.leaf)) s = p

/-- What two halves of height `h` satisfy when their join is found. -/
structure Joins (h : ℕ) (l r : List ι) : Prop where
  meets : S.Meets h (l.map S.leaf).sum (r.map S.leaf).sum
  bucket : S.bucket h (l.map S.leaf).sum = S.bucket h (r.map S.leaf).sum
  before : l.headD default < r.headD default
  disjoint : l.Disjoint r

variable {S F} {leaves : Set ι} {K : ℕ}

theorem length_order_tree (h b s : ℕ) : (F.tree h b s).order.length = 2 ^ h := by
  induction h generalizing b s with
  | zero => rfl
  | succ h ih => rw [tree, Tree.order, length_mergeOrder, ih, ih, Nat.pow_succ, Nat.mul_two]

theorem hash_eq (h b s : ℕ) : F.hash S h b s = ((F.tree h b s).order.map S.leaf).sum :=
  (Tree.sum_order ..).symm

omit [LinearOrder ι] [Inhabited ι] in
theorem IsPair.stored_left {h : ℕ} {p : ℕ × ℕ × ℕ} (hp : F.IsPair S h p) : p.2.1 < F.count h p.1 :=
  Nat.lt_trans hp.lt hp.stored

theorem Sound.mem_leaves (hF : F.Sound S leaves K) {h b s : ℕ} (hh : h ≤ K) (hb : b < S.buckets)
    (hs : s < F.count h b) : ∀ i ∈ (F.tree h b s).order, i ∈ leaves := by
  induction h generalizing b s with
  | zero =>
    intro i hi
    obtain rfl := List.mem_singleton.mp hi
    exact hF.leaf b s hb hs
  | succ h ih =>
    intro i hi
    have hp := hF.pair h (by omega) b s hb hs
    rcases List.mem_append.mp ((mergeOrder_perm _ _).mem_iff.mp hi) with hi | hi
    · exact ih (by omega) hp.bucket hp.stored_left i hi
    · exact ih (by omega) hp.bucket hp.stored i hi

/-- A pair of distinct leaves orders to two halves that join. -/
theorem Sound.joins_of_isPair (hF : F.Sound S leaves K) {h : ℕ} (hh : h ≤ K) {p : ℕ × ℕ × ℕ}
    (hp : F.IsPair S h p) (hnd : (F.pairTree h p).order.Nodup) :
    ∃ l r, (F.pairTree h p).order = l ++ r ∧ Joins S h l r ∧
      ((l = (F.tree h p.1 p.2.1).order ∧ r = (F.tree h p.1 p.2.2).order) ∨
        (r = (F.tree h p.1 p.2.1).order ∧ l = (F.tree h p.1 p.2.2).order)) := by
  set a := (F.tree h p.1 p.2.1).order with ha
  set b := (F.tree h p.1 p.2.2).order with hb
  have hdisj : a.Disjoint b := (List.nodup_append'.mp ((mergeOrder_perm a b).nodup_iff.mp hnd)).2.2
  have hmeets := hp.meets
  rw [hash_eq, hash_eq, ← ha, ← hb] at hmeets
  have hbucket : S.bucket h (a.map S.leaf).sum = S.bucket h (b.map S.leaf).sum := by
    rw [ha, hb, ← hash_eq, ← hash_eq, hF.bucket h hh _ _ hp.bucket hp.stored_left,
      hF.bucket h hh _ _ hp.bucket hp.stored]
  have hlena : 0 < a.length := by rw [ha, length_order_tree]; exact Nat.two_pow_pos h
  have hlenb : 0 < b.length := by rw [hb, length_order_tree]; exact Nat.two_pow_pos h
  have hne : a.headD default ≠ b.headD default := by
    obtain ⟨x, a', hxa⟩ := List.exists_cons_of_length_pos hlena
    obtain ⟨y, b', hyb⟩ := List.exists_cons_of_length_pos hlenb
    rw [hxa, hyb] at hdisj ⊢
    intro h
    rw [show x = y from h] at hdisj
    exact hdisj List.mem_cons_self List.mem_cons_self
  rcases lt_or_gt_of_ne hne with hlt | hgt
  · exact ⟨a, b, (mergeOrder_of_lt hlt).1, ⟨hmeets, hbucket, hlt, hdisj⟩, Or.inl ⟨rfl, rfl⟩⟩
  · exact ⟨b, a, (mergeOrder_of_lt hgt).2,
      ⟨S.meets_symm hmeets, hbucket.symm, hgt, List.disjoint_comm.mp hdisj⟩, Or.inr ⟨rfl, rfl⟩⟩

theorem Sound.balanced_tree (hF : F.Sound S leaves K) {h b s : ℕ} (hh : h ≤ K) (hb : b < S.buckets)
    (hs : s < F.count h b) (hnd : (F.tree h b s).order.Nodup) :
    Balanced (Joins S) h (F.tree h b s).order := by
  induction h generalizing b s with
  | zero => rfl
  | succ h ih =>
    have hp := hF.pair h (by omega) b s hb hs
    obtain ⟨l, r, hlr, hj, hcases⟩ := hF.joins_of_isPair (by omega) hp hnd
    rw [tree_succ] at hnd ⊢
    rw [hlr] at hnd ⊢
    obtain ⟨hl, hr, -⟩ := List.nodup_append'.mp hnd
    rcases hcases with ⟨rfl, rfl⟩ | ⟨rfl, rfl⟩
    · exact ⟨_, _, rfl, ih (by omega) hp.bucket hp.stored_left hl,
        ih (by omega) hp.bucket hp.stored hr, hj⟩
    · exact ⟨_, _, rfl, ih (by omega) hp.bucket hp.stored hl,
        ih (by omega) hp.bucket hp.stored_left hr, hj⟩

/-- Soundness: a pair whose leaves are distinct orders to a balanced vector. -/
theorem Sound.balanced_pairTree (hF : F.Sound S leaves K) {h : ℕ} (hh : h ≤ K) {p : ℕ × ℕ × ℕ}
    (hp : F.IsPair S h p) (hnd : (F.pairTree h p).order.Nodup) :
    Balanced (Joins S) (h + 1) (F.pairTree h p).order := by
  obtain ⟨l, r, hlr, hj, hcases⟩ := hF.joins_of_isPair hh hp hnd
  rw [hlr] at hnd ⊢
  obtain ⟨hl, hr, -⟩ := List.nodup_append'.mp hnd
  rcases hcases with ⟨rfl, rfl⟩ | ⟨rfl, rfl⟩
  · exact ⟨_, _, rfl, hF.balanced_tree hh hp.bucket hp.stored_left hl,
      hF.balanced_tree hh hp.bucket hp.stored hr, hj⟩
  · exact ⟨_, _, rfl, hF.balanced_tree hh hp.bucket hp.stored hl,
      hF.balanced_tree hh hp.bucket hp.stored_left hr, hj⟩

structure Lists (S : Scheme ι G) (F : Forest ι) (h : ℕ) (v : List ι) (q : ℕ × ℕ) : Prop where
  bucket : q.1 < S.buckets
  stored : q.2 < F.count h q.1
  order : (F.tree h q.1 q.2).order = v

structure Distinct (S : Scheme ι G) (F : Forest ι) (K : ℕ) : Prop where
  leaf : ∀ q q' : ℕ × ℕ, q.2 < F.count 0 q.1 → q'.2 < F.count 0 q'.1 → q.1 < S.buckets → q'.1 < S.buckets →
    F.leafAt q.1 q.2 = F.leafAt q'.1 q'.2 → q = q'
  pair : ∀ h < K, ∀ q q' : ℕ × ℕ, q.2 < F.count (h + 1) q.1 → q'.2 < F.count (h + 1) q'.1 → q.1 < S.buckets →
    q'.1 < S.buckets → F.pairAt (h + 1) q.1 q.2 = F.pairAt (h + 1) q'.1 q'.2 → q = q'

theorem Sound.pair_unique (hF : F.Sound S leaves K) {h : ℕ} (hh : h ≤ K)
    (hentry : ∀ v q q', v.Nodup → Lists S F h v q → Lists S F h v q' → q = q') {p p' : ℕ × ℕ × ℕ}
    (hp : F.IsPair S h p) (hp' : F.IsPair S h p') (hnd : (F.pairTree h p).order.Nodup)
    (heq : (F.pairTree h p).order = (F.pairTree h p').order) : p = p' := by
  -- A pair is determined by its order when the entries of its layer are
  obtain ⟨l, r, hlr, -, hcases⟩ := hF.joins_of_isPair hh hp hnd
  obtain ⟨l', r', hlr', -, hcases'⟩ := hF.joins_of_isPair hh hp' (heq ▸ hnd)
  have hlen : l.length = l'.length := by
    rcases hcases with ⟨rfl, -⟩ | ⟨-, rfl⟩ <;> rcases hcases' with ⟨rfl, -⟩ | ⟨-, rfl⟩ <;>
      rw [length_order_tree, length_order_tree]
  rw [hlr] at hnd
  rw [hlr, hlr'] at heq
  obtain ⟨rfl, rfl⟩ := List.append_inj heq hlen
  obtain ⟨hl, hr, -⟩ := List.nodup_append'.mp hnd
  have e0 : ∀ q : ℕ × ℕ × ℕ, F.IsPair S h q → Lists S F h (F.tree h q.1 q.2.1).order (q.1, q.2.1) :=
    fun q hq => ⟨hq.bucket, hq.stored_left, rfl⟩
  have e1 : ∀ q : ℕ × ℕ × ℕ, F.IsPair S h q → Lists S F h (F.tree h q.1 q.2.2).order (q.1, q.2.2) :=
    fun q hq => ⟨hq.bucket, hq.stored, rfl⟩
  obtain ⟨b, s0, s1⟩ := p
  obtain ⟨b', s0', s1'⟩ := p'
  have hlt := hp.lt
  have hlt' := hp'.lt
  rcases hcases with ⟨hl0, hr1⟩ | ⟨hr0, hl1⟩ <;> rcases hcases' with ⟨hl0', hr1'⟩ | ⟨hr0', hl1'⟩
  · have h0 := hentry l _ _ hl (hl0 ▸ e0 _ hp) (hl0' ▸ e0 _ hp')
    have h1 := hentry r _ _ hr (hr1 ▸ e1 _ hp) (hr1' ▸ e1 _ hp')
    simp only [Prod.mk.injEq] at h0 h1
    rw [h0.1, h0.2, h1.2]
  · have h0 := hentry l _ _ hl (hl0 ▸ e0 _ hp) (hl1' ▸ e1 _ hp')
    have h1 := hentry r _ _ hr (hr1 ▸ e1 _ hp) (hr0' ▸ e0 _ hp')
    simp only [Prod.mk.injEq] at h0 h1 hlt hlt'
    omega
  · have h0 := hentry r _ _ hr (hr0 ▸ e0 _ hp) (hr1' ▸ e1 _ hp')
    have h1 := hentry l _ _ hl (hl1 ▸ e1 _ hp) (hl0' ▸ e0 _ hp')
    simp only [Prod.mk.injEq] at h0 h1 hlt hlt'
    omega
  · have h0 := hentry r _ _ hr (hr0 ▸ e0 _ hp) (hr0' ▸ e0 _ hp')
    have h1 := hentry l _ _ hl (hl1 ▸ e1 _ hp) (hl1' ▸ e1 _ hp')
    simp only [Prod.mk.injEq] at h0 h1
    rw [h0.1, h0.2, h1.2]

/-- Two entries never stand for one vector of distinct leaves. -/
theorem Distinct.entry_unique (hD : Distinct S F K) (hF : F.Sound S leaves K) {h : ℕ} (hh : h ≤ K) :
    ∀ v q q', v.Nodup → Lists S F h v q → Lists S F h v q' → q = q' := by
  induction h with
  | zero =>
    rintro v q q' - hq hq'
    exact hD.leaf q q' hq.stored hq'.stored hq.bucket hq'.bucket
      (List.singleton_inj.mp (hq.order.trans hq'.order.symm))
  | succ h ih =>
    intro v q q' hnd hq hq'
    have hp := hF.pair h (by omega) _ _ hq.bucket hq.stored
    have hp' := hF.pair h (by omega) _ _ hq'.bucket hq'.stored
    refine hD.pair h (by omega) q q' hq.stored hq'.stored hq.bucket hq'.bucket ?_
    exact hF.pair_unique (by omega) (ih (by omega)) hp hp' (by rw [← tree_succ, hq.order]; exact hnd)
      (by rw [← tree_succ, ← tree_succ, hq.order, hq'.order])

/-- From unique entries for the halves to a unique pair for the whole. -/
theorem existsUnique_pair (hS : F.Sound S leaves K) {h : ℕ} (hh : h ≤ K) {l r : List ι}
    (hlen : l.length = 2 ^ h) (hj : Joins S h l r) (hl : ∃! q, Lists S F h l q)
    (hr : ∃! q, Lists S F h r q) : ∃! p, F.IsPair S h p ∧ (F.pairTree h p).order = l ++ r := by
  obtain ⟨⟨bl, sl⟩, hql, hul⟩ := hl
  obtain ⟨⟨br, sr⟩, hqr, hur⟩ := hr
  have hhl : F.hash S h bl sl = (l.map S.leaf).sum := by rw [hash_eq, hql.order]
  have hhr : F.hash S h br sr = (r.map S.leaf).sum := by rw [hash_eq, hqr.order]
  obtain rfl : bl = br := by
    rw [← hS.bucket h hh bl sl hql.bucket hql.stored,
      ← hS.bucket h hh br sr hqr.bucket hqr.stored, hhl, hhr]
    exact hj.bucket
  have hne : sl ≠ sr := by
    rintro rfl
    have heq : l = r := hql.order.symm.trans hqr.order
    exact absurd hj.before (by rw [heq]; exact lt_irrefl _)
  have hmeets : S.Meets h (F.hash S h bl sl) (F.hash S h bl sr) := by rw [hhl, hhr]; exact hj.meets
  have hsplit : ∀ p, F.IsPair S h p → (F.pairTree h p).order = l ++ r →
      p = (bl, sl, sr) ∨ p = (bl, sr, sl) := by
    rintro ⟨b, s0, s1⟩ hp hord
    rcases mergeOrder_eq_append (by rw [length_order_tree, hlen]) (by rw [length_order_tree, hlen]) hord with
      ⟨h0, h1⟩ | ⟨h1, h0⟩
    · have e0 := hul (b, s0) ⟨hp.bucket, hp.stored_left, h0⟩
      have e1 := hur (b, s1) ⟨hp.bucket, hp.stored, h1⟩
      simp only [Prod.mk.injEq] at e0 e1
      exact Or.inl (by rw [e0.1, e0.2, e1.2])
    · have e0 := hur (b, s0) ⟨hp.bucket, hp.stored_left, h0⟩
      have e1 := hul (b, s1) ⟨hp.bucket, hp.stored, h1⟩
      simp only [Prod.mk.injEq] at e0 e1
      exact Or.inr (by rw [e0.1, e0.2, e1.2])
  rcases Nat.lt_or_gt_of_ne hne with hlt | hgt
  · refine ⟨(bl, sl, sr), ⟨⟨hql.bucket, hlt, hqr.stored, hmeets⟩, ?_⟩, ?_⟩
    · rw [pairTree, Tree.order, hql.order, hqr.order, (mergeOrder_of_lt hj.before).1]
    · rintro p ⟨hp, hord⟩
      rcases hsplit p hp hord with rfl | rfl
      · rfl
      · exact absurd hp.lt (Nat.not_lt_of_gt hlt)
  · refine ⟨(bl, sr, sl), ⟨⟨hql.bucket, hgt, hql.stored, S.meets_symm hmeets⟩, ?_⟩, ?_⟩
    · rw [pairTree, Tree.order, hql.order, hqr.order, (mergeOrder_of_lt hj.before).2]
    · rintro p ⟨hp, hord⟩
      rcases hsplit p hp hord with rfl | rfl
      · exact absurd hp.lt (Nat.not_lt_of_gt hgt)
      · rfl

theorem existsUnique_tree (hS : F.Sound S leaves K) (hC : F.Complete S leaves K) {h : ℕ}
    (hh : h ≤ K) {v : List ι} (hv : Balanced (Joins S) h v) (hmem : ∀ i ∈ v, i ∈ leaves) :
    ∃! q, Lists S F h v q := by
  induction h generalizing v with
  | zero =>
    obtain ⟨i, rfl⟩ := List.length_eq_one_iff.mp hv
    obtain ⟨s, ⟨hs, hleaf⟩, huniq⟩ := hC.leaf i (hmem i List.mem_cons_self)
    refine ⟨(_, s), ⟨S.bucket_lt _ _, hs, by rw [tree, Tree.order, hleaf]⟩, ?_⟩
    rintro ⟨b, t⟩ ⟨hb, ht, hord⟩
    have hti : F.leafAt b t = i := List.singleton_inj.mp hord
    have hbkt : S.bucket 0 (S.leaf i) = b := by
      have := hS.bucket 0 hh b t hb ht
      rwa [hash, tree, Tree.sum, hti] at this
    rw [hbkt] at huniq
    exact Prod.ext hbkt.symm (huniq t ⟨ht, hti⟩)
  | succ h ih =>
    obtain ⟨l, r, rfl, hl, hr, hj⟩ := hv
    have hql := ih (by omega) hl fun i hi => hmem i (List.mem_append_left r hi)
    have hqr := ih (by omega) hr fun i hi => hmem i (List.mem_append_right l hi)
    obtain ⟨p, ⟨hp, hord⟩, hpu⟩ := existsUnique_pair hS (by omega) hl.length hj hql hqr
    obtain ⟨s, ⟨hs, hpair⟩, hsu⟩ := hC.pair h (by omega) p hp
    refine ⟨(_, s), ⟨S.bucket_lt _ _, hs, by rw [tree_succ, hpair, hord]⟩, ?_⟩
    rintro ⟨b, t⟩ ⟨hb, ht, hordt⟩
    have htp : F.pairAt (h + 1) b t = p := hpu _ ⟨hS.pair h (by omega) b t hb ht, by rwa [tree_succ] at hordt⟩
    have hbkt : S.bucket (h + 1) ((F.pairTree h p).sum S.leaf) = b := by
      have := hS.bucket (h + 1) hh b t hb ht
      rwa [hash, tree_succ, htp] at this
    rw [hbkt] at hsu
    exact Prod.ext hbkt.symm (hsu t ⟨ht, htp⟩)

/-- Completeness: a balanced vector is the order of exactly one pair of the last layer. -/
theorem existsUnique_pairTree (hS : F.Sound S leaves K) (hC : F.Complete S leaves K) {v : List ι}
    (hv : Balanced (Joins S) (K + 1) v) (hmem : ∀ i ∈ v, i ∈ leaves) :
    ∃! p, F.IsPair S K p ∧ (F.pairTree K p).order = v := by
  obtain ⟨l, r, rfl, hl, hr, hj⟩ := hv
  exact existsUnique_pair hS (Nat.le_refl K) hl.length hj
    (existsUnique_tree hS hC (Nat.le_refl K) hl fun i hi => hmem i (List.mem_append_left r hi))
    (existsUnique_tree hS hC (Nat.le_refl K) hr fun i hi => hmem i (List.mem_append_right l hi))

end Forest
end Aion.Wagner
