import AionMiner.Store.Reserve
import Mathlib.Algebra.BigOperators.Fin
import Mathlib.Data.List.Nodup
import Mathlib.Data.List.Perm.Basic

/-! Grid-stride kernels. Every thread walks its share of a range of items, finds the
requests of an item when it comes to it, and places them in shared buckets. What a
kernel reads does not change while it runs, so its threads are workers, and a run is
one of those of `Reserve`. -/

namespace Aion.Store

/-- The code of a kernel over memories `σ`: the start of an iteration of the outer loop with the requests
its inner loops will meet, the requests they pass over, how the others are placed and written. -/
structure Kernel (σ κ γ ρ : Type*) where
  fetch : ℕ → σ → List ρ × σ
  skips : σ → ρ → Bool
  placement : σ → Placement κ γ ρ
  steps : σ → ρ → List (γ → γ)
  buckets : σ → Buckets κ γ
  withBuckets : σ → Buckets κ γ → σ

structure Thread (κ γ ρ : Type*) extends Worker κ γ ρ where
  items : List ℕ

structure Grid (σ κ γ ρ : Type*) (n : ℕ) where
  mem : σ
  threads : Fin n → Thread κ γ ρ

/-- The values of `for (item = id; item < bound; item += nthreads)`. -/
def strided (nthreads bound id : ℕ) : List ℕ :=
  if 0 < nthreads ∧ id < bound then id :: strided nthreads bound (id + nthreads) else []
termination_by bound - id

def gridOrder (nthreads bound : ℕ) : List ℕ := (List.range nthreads).flatMap (strided nthreads bound)

section Strided

theorem mem_strided {n bound id b : ℕ} (hn : 0 < n) :
    b ∈ strided n bound id ↔ id ≤ b ∧ b < bound ∧ b % n = id % n := by
  fun_induction strided n bound id with
  | case1 id h ih =>
    rw [List.mem_cons, ih, Nat.add_mod_right]
    constructor
    · rintro (rfl | ⟨h1, h2, h3⟩)
      · exact ⟨Nat.le_refl _, h.2, rfl⟩
      · exact ⟨by omega, h2, h3⟩
    · rintro ⟨h1, h2, h3⟩
      rcases Nat.eq_or_lt_of_le h1 with rfl | hlt
      · exact Or.inl rfl
      · refine Or.inr ⟨?_, h2, h3⟩
        by_contra hge
        have hdvd : n ∣ b - id := Nat.dvd_of_mod_eq_zero (Nat.sub_mod_eq_zero_of_mod_eq h3)
        have := Nat.le_of_dvd (by omega) hdvd
        omega
  | case2 id h =>
    refine ⟨fun hb => absurd hb List.not_mem_nil, fun hb => absurd ⟨hn, ?_⟩ h⟩
    omega

theorem nodup_strided (n bound id : ℕ) : (strided n bound id).Nodup := by
  fun_induction strided n bound id with
  | case1 id h ih =>
    refine List.nodup_cons.mpr ⟨fun hmem => ?_, ih⟩
    have := ((mem_strided h.1).mp hmem).1
    omega
  | case2 id h => exact List.nodup_nil

theorem disjoint_strided {n bound i j : ℕ} (hn : 0 < n) (hi : i < n) (hj : j < n) (hij : i ≠ j) :
    (strided n bound i).Disjoint (strided n bound j) := by
  intro b hb hb'
  have h := ((mem_strided hn).mp hb).2.2
  have h' := ((mem_strided hn).mp hb').2.2
  rw [Nat.mod_eq_of_lt hi] at h
  rw [Nat.mod_eq_of_lt hj] at h'
  omega

theorem mem_gridOrder {n bound b : ℕ} (hn : 0 < n) : b ∈ gridOrder n bound ↔ b < bound := by
  rw [gridOrder, List.mem_flatMap]
  constructor
  · rintro ⟨i, -, hb⟩
    exact ((mem_strided hn).mp hb).2.1
  · intro hb
    exact ⟨b % n, List.mem_range.mpr (Nat.mod_lt b hn),
      (mem_strided hn).mpr ⟨Nat.mod_le b n, hb, (Nat.mod_mod b n).symm⟩⟩

theorem nodup_gridOrder {n : ℕ} (hn : 0 < n) (bound : ℕ) : (gridOrder n bound).Nodup := by
  refine List.nodup_flatMap.mpr ⟨fun i _ => nodup_strided n bound i, ?_⟩
  refine List.Nodup.pairwise_of_forall_ne List.nodup_range fun i hi j hj hij => ?_
  exact disjoint_strided hn (List.mem_range.mp hi) (List.mem_range.mp hj) hij

/-- The threads share the items out among them. -/
theorem gridOrder_perm {n : ℕ} (hn : 0 < n) (bound : ℕ) :
    (gridOrder n bound).Perm (List.range bound) :=
  (List.perm_ext_iff_of_nodup (nodup_gridOrder hn bound) List.nodup_range).mpr fun b => by
    rw [mem_gridOrder hn, List.mem_range]

end Strided

variable {σ κ γ ρ τ α : Type*} [DecidableEq κ] {n : ℕ}

namespace Kernel
variable (K : Kernel σ κ γ ρ)

inductive Step : Grid σ κ γ ρ n → Grid σ κ γ ρ n → Prop
  | fetch {g : Grid σ κ γ ρ n} (i : Fin n) (b : ℕ) (bs : List ℕ) (hrest : (g.threads i).rest = [])
      (hpending : (g.threads i).pending = []) (hitems : (g.threads i).items = b :: bs) :
      Step g ⟨(K.fetch b g.mem).2,
        Function.update g.threads i { g.threads i with items := bs, pending := (K.fetch b g.mem).1 }⟩
  | skip {g : Grid σ κ γ ρ n} (i : Fin n) (q : ρ) (qs : List ρ) (hrest : (g.threads i).rest = [])
      (hpending : (g.threads i).pending = q :: qs) (hskip : K.skips g.mem q = true) :
      Step g ⟨g.mem, Function.update g.threads i { g.threads i with pending := qs }⟩
  | reserve {g : Grid σ κ γ ρ n} (i : Fin n) (q : ρ) (qs : List ρ) (hrest : (g.threads i).rest = [])
      (hpending : (g.threads i).pending = q :: qs) (hskip : K.skips g.mem q = false) :
      Step g ⟨K.withBuckets g.mem ((K.buckets g.mem).reserve (K.placement g.mem) q),
        Function.update g.threads i
          { taking (K.placement g.mem) (K.steps g.mem) (K.buckets g.mem) q qs with
            items := (g.threads i).items }⟩
  | write {g : Grid σ κ γ ρ n} (i : Fin n) (f : γ → γ) (fs : List (γ → γ)) (hrest : (g.threads i).rest = f :: fs) :
      Step g ⟨K.withBuckets g.mem ((K.buckets g.mem).modify (g.threads i).cell f),
        Function.update g.threads i { g.threads i with rest := fs }⟩

def launch [Inhabited κ] (_ : Kernel σ κ γ ρ) (n bound : ℕ) (s : σ) : Grid σ κ γ ρ n where
  mem := s
  threads i := { pending := [], cell := default, rest := [], items := strided n bound i }

/-- Some interleaving of `n` threads that all run to their ends leads from `s` to `s'`. -/
def Runs [Inhabited κ] (n bound : ℕ) (s s' : σ) : Prop :=
  ∃ g : Grid σ κ γ ρ n, Relation.ReflTransGen K.Step (K.launch n bound s) g ∧ g.mem = s' ∧
    ∀ i, (g.threads i).items = [] ∧ (g.threads i).pending = [] ∧ (g.threads i).rest = []

def requests (s : σ) (b : ℕ) : List ρ := (K.fetch b s).1.filter fun q => !K.skips s q

/-- What the code reads is in `view` and, for each item, in `entry`. No write changes it, except
that the first step of an item sets its entry to one in `Done`. -/
structure Local (view : σ → τ) (entry : σ → ℕ → α) (Done : α → Prop) : Prop where
  splits : ∀ s, Splits (K.placement s) (K.steps s)
  buckets_with : ∀ s B, K.buckets (K.withBuckets s B) = B
  with_with : ∀ s B B', K.withBuckets (K.withBuckets s B) B' = K.withBuckets s B'
  view_with : ∀ s B, view (K.withBuckets s B) = view s
  entry_with : ∀ s B, entry (K.withBuckets s B) = entry s
  buckets_fetch : ∀ b s, K.buckets (K.fetch b s).2 = K.buckets s
  view_fetch : ∀ b s, view (K.fetch b s).2 = view s
  entry_fetch : ∀ b s b', b' ≠ b → entry (K.fetch b s).2 b' = entry s b'
  done : ∀ b s, Done (entry (K.fetch b s).2 b)
  fetch_eq : ∀ b s s', view s = view s' → entry s b = entry s' b → (K.fetch b s).1 = (K.fetch b s').1
  skips_eq : ∀ s s', view s = view s' → K.skips s = K.skips s'
  placement_eq : ∀ s s', view s = view s' → K.placement s = K.placement s'
  steps_eq : ∀ s s', view s = view s' → K.steps s = K.steps s'

section Abstraction
variable (s₀ : σ)

/-- A thread as a worker: every request it will still make. -/
def worker (t : Thread κ γ ρ) : Worker κ γ ρ where
  pending := (t.pending.filter fun q => !K.skips s₀ q) ++ t.items.flatMap (K.requests s₀)
  cell := t.cell
  rest := t.rest

def shared (g : Grid σ κ γ ρ n) : Shared κ γ ρ n := ⟨K.buckets g.mem, fun i => K.worker s₀ (g.threads i)⟩

/-- What the threads still read is as it was at the start. -/
structure Inv (view : σ → τ) (entry : σ → ℕ → α) (Done : α → Prop) (bound : ℕ) (g : Grid σ κ γ ρ n) : Prop where
  same : view g.mem = view s₀
  ready : ∀ i, ∀ b ∈ (g.threads i).items, entry g.mem b = entry s₀ b
  nodup : ∀ i, (g.threads i).items.Nodup
  apart : ∀ i j, i ≠ j → (g.threads i).items.Disjoint (g.threads j).items
  done : ∀ b < bound, (∃ i, b ∈ (g.threads i).items) ∨ Done (entry g.mem b)

end Abstraction

variable {K} {view : σ → τ} {entry : σ → ℕ → α} {Done : α → Prop} {s₀ : σ} {bound : ℕ}

omit [DecidableEq κ] in
theorem shared_update {g : Grid σ κ γ ρ n} (mem : σ) (i : Fin n) (t : Thread κ γ ρ) :
    K.shared s₀ ⟨mem, Function.update g.threads i t⟩ =
      ⟨K.buckets mem, Function.update (K.shared s₀ g).workers i (K.worker s₀ t)⟩ := by
  refine congrArg (Shared.mk _) (funext fun j => ?_)
  change K.worker s₀ (Function.update g.threads i t j) = _
  by_cases hj : j = i
  · rw [hj, Function.update_self, Function.update_self]
  · rw [Function.update_of_ne hj, Function.update_of_ne hj]
    rfl

omit [DecidableEq κ] in
theorem Inv.frame {g : Grid σ κ γ ρ n} (hI : Inv s₀ view entry Done bound g) {mem : σ} {i : Fin n}
    {t : Thread κ γ ρ} (hview : view mem = view g.mem) (hentry : entry mem = entry g.mem)
    (hitems : t.items = (g.threads i).items) :
    Inv s₀ view entry Done bound ⟨mem, Function.update g.threads i t⟩ := by
  -- A step that leaves its thread's items alone and reads nothing away keeps the invariant
  have hsame : ∀ j, (Function.update g.threads i t j).items = (g.threads j).items := by
    intro j
    by_cases hj : j = i
    · rw [hj, Function.update_self, hitems]
    · rw [Function.update_of_ne hj]
  refine ⟨hview.trans hI.same, fun j b hb => ?_, fun j => ?_, fun j k hjk => ?_, fun b hb => ?_⟩
  · rw [hsame] at hb
    rw [hentry]
    exact hI.ready j b hb
  · rw [hsame]
    exact hI.nodup j
  · rw [hsame, hsame]
    exact hI.apart j k hjk
  · rw [hentry]
    exact (hI.done b hb).imp (fun ⟨j, hj⟩ => ⟨j, by rwa [hsame]⟩) id

omit [DecidableEq κ] in
theorem Inv.fetch (hL : K.Local view entry Done) {g : Grid σ κ γ ρ n}
    (hI : Inv s₀ view entry Done bound g) {i : Fin n} {b : ℕ} {bs : List ℕ}
    (hitems : (g.threads i).items = b :: bs) {t : Thread κ γ ρ} (ht : t.items = bs) :
    Inv s₀ view entry Done bound ⟨(K.fetch b g.mem).2, Function.update g.threads i t⟩ := by
  have hnd := hI.nodup i
  rw [hitems] at hnd
  obtain ⟨hb, hbs⟩ := List.nodup_cons.mp hnd
  have hself : b ∈ (g.threads i).items := by rw [hitems]; exact List.mem_cons_self
  have hsub : ∀ j, ∀ c ∈ (Function.update g.threads i t j).items, c ∈ (g.threads j).items ∧
      c ≠ b := by
    intro j c hc
    by_cases hj : j = i
    · rw [hj, Function.update_self, ht] at hc
      rw [hj, hitems]
      exact ⟨List.mem_cons_of_mem b hc, fun h => hb (h ▸ hc)⟩
    · rw [Function.update_of_ne hj] at hc
      exact ⟨hc, fun h => hI.apart j i hj hc (h ▸ hself)⟩
  refine ⟨(hL.view_fetch b _).trans hI.same, fun j c hc => ?_, fun j => ?_,
    fun j k hjk c hc hc' => ?_, fun c hc => ?_⟩
  · obtain ⟨hmem, hne⟩ := hsub j c hc
    exact (hL.entry_fetch b _ c hne).trans (hI.ready j c hmem)
  · change (Function.update g.threads i t j).items.Nodup
    by_cases hj : j = i
    · rw [hj, Function.update_self, ht]
      exact hbs
    · rw [Function.update_of_ne hj]
      exact hI.nodup j
  · exact hI.apart j k hjk (hsub j c hc).1 (hsub k c hc').1
  · by_cases hcb : c = b
    · rw [hcb]
      exact Or.inr (hL.done b _)
    · rw [hL.entry_fetch b _ c hcb]
      refine (hI.done c hc).imp (fun ⟨j, hj⟩ => ⟨j, ?_⟩) id
      change c ∈ (Function.update g.threads i t j).items
      by_cases hji : j = i
      · rw [hji, hitems] at hj
        rw [hji, Function.update_self, ht]
        exact (List.mem_cons.mp hj).resolve_left hcb
      · rwa [Function.update_of_ne hji]

/-- One step of the grid is at most one step of the workers. -/
theorem Inv.step (hL : K.Local view entry Done) {g g' : Grid σ κ γ ρ n}
    (hI : Inv s₀ view entry Done bound g) (hstep : K.Step g g') :
    Inv s₀ view entry Done bound g' ∧
      Relation.ReflTransGen (Store.Step (K.placement s₀) (K.steps s₀)) (K.shared s₀ g)
      (K.shared s₀ g') := by
  have hskips := hL.skips_eq _ _ hI.same
  have hplacement := hL.placement_eq _ _ hI.same
  have hsteps := hL.steps_eq _ _ hI.same
  have hidle : ∀ (mem : σ) (i : Fin n) (t : Thread κ γ ρ), K.buckets mem = K.buckets g.mem →
      K.worker s₀ t = K.worker s₀ (g.threads i) →
      K.shared s₀ ⟨mem, Function.update g.threads i t⟩ = K.shared s₀ g := by
    intro mem i t hmem ht
    rw [shared_update, hmem, ht]
    exact congrArg (Shared.mk _) (Function.update_eq_self i _)
  cases hstep with
  | fetch i b bs hrest hpending hitems =>
    refine ⟨hI.fetch hL hitems rfl, ?_⟩
    rw [hidle _ _ _ (hL.buckets_fetch b _)]
    have hself : b ∈ (g.threads i).items := by rw [hitems]; exact List.mem_cons_self
    have hlist := hL.fetch_eq b _ _ hI.same (hI.ready i b hself)
    rw [worker, worker, hpending, hitems, List.filter_nil, List.nil_append,
      List.flatMap_cons, hlist]
    rfl
  | skip i q qs hrest hpending hskip =>
    refine ⟨hI.frame rfl rfl rfl, ?_⟩
    rw [hidle _ _ _ rfl]
    rw [hskips] at hskip
    rw [worker, worker, hpending, List.filter_cons_of_neg (by rw [hskip]; decide)]
  | reserve i q qs hrest hpending hskip =>
    refine ⟨hI.frame (hL.view_with ..) (hL.entry_with ..) rfl, Relation.ReflTransGen.single ?_⟩
    rw [hskips] at hskip
    rw [shared_update, hL.buckets_with, hplacement, hsteps]
    have hpend : ((K.shared s₀ g).workers i).pending =
        q :: ((qs.filter fun q => !K.skips s₀ q) ++ (g.threads i).items.flatMap (K.requests s₀)) := by
      change ((g.threads i).pending.filter _) ++ _ = _
      rw [hpending, List.filter_cons_of_pos (by rw [hskip]; decide), List.cons_append]
    exact Store.Step.reserve (σ := K.shared s₀ g) i q _ hrest hpend
  | write i f fs hrest =>
    refine ⟨hI.frame (hL.view_with ..) (hL.entry_with ..) rfl, Relation.ReflTransGen.single ?_⟩
    rw [shared_update, hL.buckets_with]
    exact Store.Step.write (σ := K.shared s₀ g) i f fs hrest

omit [DecidableEq κ] in
theorem inv_launch [Inhabited κ] (hn : 0 < n) (s : σ) :
    Inv s view entry Done bound (K.launch n bound s) where
  same := rfl
  ready _ _ _ := rfl
  nodup i := nodup_strided n bound i
  apart i j hij := disjoint_strided hn i.isLt j.isLt fun h => hij (Fin.ext h)
  done b hb := Or.inl ⟨⟨b % n, Nat.mod_lt b hn⟩,
    (mem_strided hn).mpr ⟨Nat.mod_le b n, hb, (Nat.mod_mod b n).symm⟩⟩

theorem coe_flatMap_range (f : ℕ → List ρ) (n : ℕ) :
    ∑ i : Fin n, (f i : Multiset ρ) = ((List.range n).flatMap f : List ρ) := by
  induction n with
  | zero => rfl
  | succ n ih =>
    rw [Fin.sum_univ_castSucc, List.range_succ, List.flatMap_append, List.flatMap_singleton,
      ← Multiset.coe_add]
    exact congrArg (· + _) ih

omit [DecidableEq κ] in
theorem remaining_launch [Inhabited κ] (s : σ) :
    (K.shared s (K.launch n bound s)).remaining = ((gridOrder n bound).flatMap (K.requests s) : List ρ) := by
  rw [gridOrder, List.flatMap_assoc, ← coe_flatMap_range]
  rfl

/-- Whatever the interleaving, a kernel leaves what some order of its requests leaves. -/
theorem Runs.serializes [Inhabited κ] (hL : K.Local view entry Done) (hn : 0 < n) {s s' : σ}
    (hrun : K.Runs n bound s s') (hzero : ∀ q, (K.buckets s).count ((K.placement s).key q) = 0)
    (hlt : ((gridOrder n bound).flatMap (K.requests s)).length < (K.placement s).modulus) :
    (∃ qs : List ρ, qs.Perm ((gridOrder n bound).flatMap (K.requests s)) ∧
      K.buckets s' = (K.buckets s).putAll (K.placement s) qs) ∧
      view s' = view s ∧ ∀ b < bound, Done (entry s' b) := by
  obtain ⟨g, hreach, rfl, hdone⟩ := hrun
  have key : Inv s view entry Done bound g ∧ Relation.ReflTransGen (Store.Step (K.placement s) (K.steps s))
      (K.shared s (K.launch n bound s)) (K.shared s g) := by
    clear hdone
    induction hreach with
    | refl => exact ⟨inv_launch hn s, Relation.ReflTransGen.refl⟩
    | tail _ hstep ih =>
      obtain ⟨hI, hsteps⟩ := ih.1.step hL hstep
      exact ⟨hI, ih.2.trans hsteps⟩
  obtain ⟨hI, hsteps⟩ := key
  refine ⟨?_, hI.same, fun b hb => (hI.done b hb).resolve_left fun ⟨i, hi⟩ => ?_⟩
  · have hend : ∀ i, ((K.shared s g).workers i).pending = [] ∧
        ((K.shared s g).workers i).rest = [] := by
      intro i
      obtain ⟨h1, h2, h3⟩ := hdone i
      refine ⟨?_, h3⟩
      change ((g.threads i).pending.filter _) ++ (g.threads i).items.flatMap _ = []
      rw [h1, h2]
      rfl
    obtain ⟨qs, hqs, hput⟩ := Store.serializes (hL.splits s) (σ := K.shared s (K.launch n bound s)) hzero
      (fun _ => rfl) (by rw [remaining_launch]; exact hlt) hsteps hend
    rw [remaining_launch] at hqs
    exact ⟨qs, Multiset.coe_eq_coe.mp hqs, hput⟩
  · rw [(hdone i).1] at hi
    cases hi

section Sequential
variable (K)

def place (s : σ) (q : ρ) : σ :=
  if K.skips s q then s else K.withBuckets s ((K.buckets s).put (K.placement s) q)

def execItem (s : σ) (b : ℕ) : σ := (K.fetch b s).1.foldl K.place (K.fetch b s).2

/-- The kernel with its threads one after the other. -/
def exec (n bound : ℕ) (s : σ) : σ := (gridOrder n bound).foldl K.execItem s

variable {K}

theorem foldl_place (hL : K.Local view entry Done) {s : σ} (hs : view s = view s₀) (qs : List ρ) :
    K.buckets (qs.foldl K.place s) =
        (K.buckets s).putAll (K.placement s₀) (qs.filter fun q => !K.skips s₀ q) ∧
      view (qs.foldl K.place s) = view s ∧ entry (qs.foldl K.place s) = entry s := by
  induction qs generalizing s with
  | nil => exact ⟨rfl, rfl, rfl⟩
  | cons q qs ih =>
    rw [List.foldl_cons, place, hL.skips_eq _ _ hs, hL.placement_eq _ _ hs]
    split
    · next hskip =>
      rw [List.filter_cons_of_neg (by rw [hskip]; decide)]
      exact ih hs
    · next hskip =>
      rw [List.filter_cons_of_pos (by rwa [Bool.not_eq_true', ← Bool.not_eq_true])]
      obtain ⟨h1, h2, h3⟩ := ih (s := K.withBuckets s ((K.buckets s).put (K.placement s₀) q))
        ((hL.view_with _ _).trans hs)
      rw [h1, h2, h3, hL.buckets_with, hL.view_with, hL.entry_with]
      exact ⟨rfl, rfl, rfl⟩

theorem foldl_execItem (hL : K.Local view entry Done) {s : σ} (hs : view s = view s₀) {bs : List ℕ}
    (hnd : bs.Nodup) (hready : ∀ b ∈ bs, entry s b = entry s₀ b) :
    K.buckets (bs.foldl K.execItem s) = (K.buckets s).putAll (K.placement s₀) (bs.flatMap (K.requests s₀)) ∧
      view (bs.foldl K.execItem s) = view s ∧ (∀ b ∈ bs, Done (entry (bs.foldl K.execItem s) b)) ∧
      ∀ b ∉ bs, entry (bs.foldl K.execItem s) b = entry s b := by
  induction bs generalizing s with
  | nil => exact ⟨rfl, rfl, fun b hb => (List.not_mem_nil hb).elim, fun b _ => rfl⟩
  | cons b bs ih =>
    obtain ⟨hb, hbs⟩ := List.nodup_cons.mp hnd
    have hview : view (K.fetch b s).2 = view s₀ := (hL.view_fetch b s).trans hs
    obtain ⟨h1, h2, h3⟩ := foldl_place hL hview (K.fetch b s).1
    have hentry : ∀ c, c ≠ b → entry (K.execItem s b) c = entry s c := fun c hc => by
      rw [execItem, h3, hL.entry_fetch b s c hc]
    obtain ⟨i1, i2, i3, i4⟩ := ih (s := K.execItem s b) (h2.trans hview) hbs fun c hc => by
      rw [hentry c fun h => hb (h ▸ hc)]
      exact hready c (List.mem_cons_of_mem b hc)
    rw [List.foldl_cons, i1, i2, List.flatMap_cons]
    refine ⟨?_, ?_, fun c hc => ?_, fun c hc => ?_⟩
    · rw [execItem, h1, hL.buckets_fetch, requests,
        hL.fetch_eq b _ _ hs (hready b List.mem_cons_self), Buckets.putAll, Buckets.putAll,
        Buckets.putAll, List.foldl_append]
    · rw [execItem, h2, hL.view_fetch]
    · rcases List.mem_cons.mp hc with rfl | hc
      · rw [i4 c hb, execItem, h3]
        exact hL.done c s
      · exact i3 c hc
    · rw [List.mem_cons, not_or] at hc
      rw [i4 c hc.2, hentry c hc.1]

/-- One thread after the other the requests are served in the order of the items. -/
theorem exec_spec (hL : K.Local view entry Done) (hn : 0 < n) (bound : ℕ) (s : σ) :
    K.buckets (K.exec n bound s) =
        (K.buckets s).putAll (K.placement s) ((gridOrder n bound).flatMap (K.requests s)) ∧
      view (K.exec n bound s) = view s ∧ ∀ b < bound, Done (entry (K.exec n bound s) b) := by
  obtain ⟨h1, h2, h3, -⟩ := foldl_execItem hL rfl (nodup_gridOrder hn bound) fun _ _ => rfl
  exact ⟨h1, h2, fun b hb => h3 b ((mem_gridOrder hn).mpr hb)⟩

/-- The steps of thread `i` when it is `t`. -/
theorem Step.fetch_at (mem : σ) (threads : Fin n → Thread κ γ ρ) (i : Fin n)
    {t : Thread κ γ ρ} {b : ℕ} {bs : List ℕ} (hrest : t.rest = []) (hpending : t.pending = [])
    (hitems : t.items = b :: bs) : K.Step ⟨mem, Function.update threads i t⟩ ⟨(K.fetch b mem).2,
      Function.update threads i { t with items := bs, pending := (K.fetch b mem).1 }⟩ := by
  have hself : Function.update threads i t i = t := Function.update_self ..
  have hthread : (⟨mem, Function.update threads i t⟩ : Grid σ κ γ ρ n).threads i = t := hself
  have h := Step.fetch (K := K) (g := ⟨mem, Function.update threads i t⟩) i b bs (by rwa [hthread])
    (by rwa [hthread])
    (by rwa [hthread])
  dsimp only at h
  rwa [hself, Function.update_idem] at h

theorem Step.skip_at (mem : σ) (threads : Fin n → Thread κ γ ρ) (i : Fin n) {t : Thread κ γ ρ} {q : ρ}
    {qs : List ρ} (hrest : t.rest = []) (hpending : t.pending = q :: qs) (hskip : K.skips mem q = true) :
    K.Step ⟨mem, Function.update threads i t⟩ ⟨mem, Function.update threads i { t with pending := qs }⟩ := by
  have hself : Function.update threads i t i = t := Function.update_self ..
  have hthread : (⟨mem, Function.update threads i t⟩ : Grid σ κ γ ρ n).threads i = t := hself
  have h := Step.skip (K := K) (g := ⟨mem, Function.update threads i t⟩) i q qs (by rwa [hthread]) (by rwa [hthread])
    hskip
  dsimp only at h
  rwa [hself, Function.update_idem] at h

theorem Step.reserve_at (mem : σ) (threads : Fin n → Thread κ γ ρ) (i : Fin n)
    {t : Thread κ γ ρ} {q : ρ} {qs : List ρ} (hrest : t.rest = []) (hpending : t.pending = q :: qs)
    (hskip : K.skips mem q = false) : K.Step ⟨mem, Function.update threads i t⟩
      ⟨K.withBuckets mem ((K.buckets mem).reserve (K.placement mem) q), Function.update threads i
        { taking (K.placement mem) (K.steps mem) (K.buckets mem) q qs with items := t.items }⟩ := by
  have hself : Function.update threads i t i = t := Function.update_self ..
  have hthread : (⟨mem, Function.update threads i t⟩ : Grid σ κ γ ρ n).threads i = t := hself
  have h := Step.reserve (K := K) (g := ⟨mem, Function.update threads i t⟩) i q qs (by rwa [hthread])
    (by rwa [hthread]) hskip
  dsimp only at h
  rwa [hself, Function.update_idem] at h

theorem Step.write_at (mem : σ) (threads : Fin n → Thread κ γ ρ) (i : Fin n) {t : Thread κ γ ρ}
    {f : γ → γ} {fs : List (γ → γ)} (hrest : t.rest = f :: fs) :
    K.Step ⟨mem, Function.update threads i t⟩ ⟨K.withBuckets mem ((K.buckets mem).modify t.cell f),
      Function.update threads i { t with rest := fs }⟩ := by
  have hself : Function.update threads i t i = t := Function.update_self ..
  have hthread : (⟨mem, Function.update threads i t⟩ : Grid σ κ γ ρ n).threads i = t := hself
  have h := Step.write (K := K) (g := ⟨mem, Function.update threads i t⟩) i f fs (by rwa [hthread])
  dsimp only at h
  rwa [hself, Function.update_idem] at h

theorem reach_writes (threads : Fin n → Thread κ γ ρ) (i : Fin n) (mem : σ) (t : Thread κ γ ρ) :
    Relation.ReflTransGen K.Step ⟨mem, Function.update threads i t⟩
      ⟨t.rest.foldl (fun s f => K.withBuckets s ((K.buckets s).modify t.cell f)) mem,
        Function.update threads i { t with rest := [] }⟩ := by
  obtain ⟨⟨pending, cell, fs⟩, items⟩ := t
  induction fs generalizing mem with
  | nil => exact Relation.ReflTransGen.refl
  | cons f fs ih => exact Relation.ReflTransGen.head (Step.write_at mem threads i rfl) (ih _)

theorem foldl_modify (hL : K.Local view entry Done) (c : κ × ℕ) (fs : List (γ → γ)) (s : σ)
    (B : Buckets κ γ) :
    fs.foldl (fun s f => K.withBuckets s ((K.buckets s).modify c f)) (K.withBuckets s B) =
      K.withBuckets s (fs.foldl (fun B f => B.modify c f) B) := by
  induction fs generalizing B with
  | nil => rfl
  | cons f fs ih => rw [List.foldl_cons, List.foldl_cons, hL.buckets_with, hL.with_with, ih]

theorem foldl_modify_reserve {P : Placement κ γ ρ} {steps : ρ → List (γ → γ)} (hs : Splits P steps)
    (B : Buckets κ γ) (q : ρ) (qs : List ρ) :
    (taking P steps B q qs).rest.foldl (fun B' f => B'.modify (taking P steps B q qs).cell f) (B.reserve P q) =
      B.put P q := by
  -- A taken slot gets all its writes: together they are the request as a whole
  have hmodify : ∀ (c : κ × ℕ) (fs : List (γ → γ)) (B : Buckets κ γ),
      fs.foldl (fun B' f => B'.modify c f) B = B.modify c (runSteps fs) := by
    intro c fs
    induction fs with
    | nil =>
      intro B
      rw [Buckets.modify, runSteps, List.foldl_nil, List.foldl_nil, Function.update_eq_self,
        Function.update_eq_self]
    | cons f fs ih =>
      intro B
      rw [List.foldl_cons, ih, Buckets.modify, Buckets.modify, Buckets.modify]
      dsimp only
      rw [Function.update_self, Function.update_self, Function.update_idem, Function.update_idem]
      rfl
  rw [taking, Buckets.put]
  dsimp only
  split
  · rw [hmodify, Buckets.modify, Buckets.reserve]
    dsimp only
    rw [hs]
  · rfl

/-- One request of thread `i`, from its test to its last write. -/
theorem reach_place (hL : K.Local view entry Done) (threads : Fin n → Thread κ γ ρ)
    (i : Fin n) (mem : σ) {t : Thread κ γ ρ} {q : ρ} {qs : List ρ} (hrest : t.rest = [])
    (hpending : t.pending = q :: qs) :
    ∃ t' : Thread κ γ ρ, t'.rest = [] ∧ t'.pending = qs ∧ t'.items = t.items ∧
      Relation.ReflTransGen K.Step ⟨mem, Function.update threads i t⟩
        ⟨K.place mem q, Function.update threads i t'⟩ := by
  rw [place]
  cases hskip : K.skips mem q with
  | true =>
    exact ⟨{ t with pending := qs }, hrest, rfl, rfl,
      Relation.ReflTransGen.single (Step.skip_at mem threads i hrest hpending hskip)⟩
  | false =>
    rw [if_neg Bool.false_ne_true]
    set t' : Thread κ γ ρ :=
      { taking (K.placement mem) (K.steps mem) (K.buckets mem) q qs with items := t.items } with ht'
    have hwrites := reach_writes (K := K) threads i
      (K.withBuckets mem ((K.buckets mem).reserve (K.placement mem) q)) t'
    rw [foldl_modify hL] at hwrites
    have hput : t'.rest.foldl (fun B f => B.modify t'.cell f) ((K.buckets mem).reserve (K.placement mem) q) =
        (K.buckets mem).put (K.placement mem) q := foldl_modify_reserve (hL.splits mem) _ q qs
    rw [hput] at hwrites
    exact ⟨{ t' with rest := [] }, rfl, rfl, rfl,
      Relation.ReflTransGen.head (Step.reserve_at mem threads i hrest hpending hskip) hwrites⟩

theorem reach_pending (hL : K.Local view entry Done) (threads : Fin n → Thread κ γ ρ)
    (i : Fin n) (mem : σ) {t : Thread κ γ ρ} {qs : List ρ} (hrest : t.rest = [])
    (hpending : t.pending = qs) :
    ∃ t' : Thread κ γ ρ, t'.rest = [] ∧ t'.pending = [] ∧ t'.items = t.items ∧
      Relation.ReflTransGen K.Step ⟨mem, Function.update threads i t⟩
        ⟨qs.foldl K.place mem, Function.update threads i t'⟩ := by
  induction qs generalizing mem t with
  | nil => exact ⟨t, hrest, hpending, rfl, Relation.ReflTransGen.refl⟩
  | cons q qs ih =>
    obtain ⟨t1, h1, h2, h3, hreach⟩ := reach_place hL threads i mem hrest hpending
    obtain ⟨t2, i1, i2, i3, hreach'⟩ := ih (K.place mem q) h1 h2
    exact ⟨t2, i1, i2, i3.trans h3, hreach.trans hreach'⟩

theorem reach_items (hL : K.Local view entry Done) (threads : Fin n → Thread κ γ ρ)
    (i : Fin n) (mem : σ) {t : Thread κ γ ρ} {bs : List ℕ} (hrest : t.rest = [])
    (hpending : t.pending = []) (hitems : t.items = bs) :
    ∃ t' : Thread κ γ ρ, t'.rest = [] ∧ t'.pending = [] ∧ t'.items = [] ∧
      Relation.ReflTransGen K.Step ⟨mem, Function.update threads i t⟩
        ⟨bs.foldl K.execItem mem, Function.update threads i t'⟩ := by
  induction bs generalizing mem t with
  | nil => exact ⟨t, hrest, hpending, hitems, Relation.ReflTransGen.refl⟩
  | cons b bs ih =>
    obtain ⟨t1, h1, h2, h3, hreach⟩ := reach_pending hL threads i (K.fetch b mem).2
      (t := { t with items := bs, pending := (K.fetch b mem).1 }) hrest rfl
    obtain ⟨t2, i1, i2, i3, hreach'⟩ := ih (K.execItem mem b) h1 h2 h3
    exact ⟨t2, i1, i2, i3,
      (Relation.ReflTransGen.head (Step.fetch_at mem threads i hrest hpending hitems) hreach).trans
        hreach'⟩

theorem runs_exec [Inhabited κ] (hL : K.Local view entry Done) (n bound : ℕ) (s : σ) :
    K.Runs n bound s (K.exec n bound s) := by
  -- One thread after the other is one of the interleavings
  have key : ∀ m ≤ n, ∃ g : Grid σ κ γ ρ n, Relation.ReflTransGen K.Step (K.launch n bound s) g ∧
      g.mem = ((List.range m).flatMap (strided n bound)).foldl K.execItem s ∧
      (∀ i : Fin n, i < m → (g.threads i).items = [] ∧ (g.threads i).pending = [] ∧ (g.threads i).rest = []) ∧
      ∀ i : Fin n, m ≤ i → g.threads i = (K.launch n bound s).threads i := by
    intro m
    induction m with
    | zero =>
      intro _
      exact ⟨_, Relation.ReflTransGen.refl, rfl, fun i hi => absurd hi (Nat.not_lt_zero _),
        fun _ _ => rfl⟩
    | succ m ih =>
      intro hm
      obtain ⟨g, hreach, hmem, hdone, hrest⟩ := ih (by omega)
      set i : Fin n := ⟨m, hm⟩ with hi
      have hti := hrest i (Nat.le_refl m)
      obtain ⟨t', h1, h2, h3, hreach'⟩ := reach_items hL g.threads i g.mem (t := g.threads i)
        (by rw [hti]; rfl) (by rw [hti]; rfl) (show (g.threads i).items = strided n bound m by rw [hti]; rfl)
      rw [Function.update_eq_self] at hreach'
      refine ⟨_, hreach.trans hreach', ?_, fun j hj => ?_, fun j hj => ?_⟩
      · rw [List.range_succ, List.flatMap_append, List.flatMap_singleton, List.foldl_append, ← hmem]
      · change (fun t : Thread κ γ ρ => t.items = [] ∧ t.pending = [] ∧ t.rest = [])
          (Function.update g.threads i t' j)
        by_cases hji : j = i
        · rw [hji, Function.update_self]
          exact ⟨h3, h2, h1⟩
        · have hne : (j : ℕ) ≠ m := fun h => hji (Fin.ext h)
          rw [Function.update_of_ne hji]
          exact hdone j (by omega)
      · change Function.update g.threads i t' j = _
        rw [Function.update_of_ne fun h => by rw [h] at hj; exact absurd hj (Nat.not_succ_le_self m)]
        exact hrest j (by omega)
  obtain ⟨g, hreach, hmem, hdone, -⟩ := key n (Nat.le_refl n)
  exact ⟨g, hreach, hmem, fun i => hdone i i.isLt⟩

end Sequential
end Kernel
end Aion.Store
