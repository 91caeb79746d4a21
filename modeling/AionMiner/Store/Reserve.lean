import AionMiner.Store.Buckets
import Mathlib.Algebra.BigOperators.Group.Finset.Basic
import Mathlib.Algebra.Order.Group.Multiset
import Mathlib.Data.Fintype.BigOperators
import Mathlib.Logic.Relation

/-! Workers that fill buckets concurrently: taking a slot number is one atomic
step, each write into the slot taken is another, and steps of different workers
interleave freely. Whatever the order, the result is that of some sequence of
whole requests. -/

namespace Aion.Store
variable {κ γ ρ : Type*} [DecidableEq κ]

structure Worker (κ γ ρ : Type*) where
  pending : List ρ
  cell : κ × ℕ
  rest : List (γ → γ)

structure Shared (κ γ ρ : Type*) (n : ℕ) where
  buckets : Buckets κ γ
  workers : Fin n → Worker κ γ ρ

def Buckets.reserve (P : Placement κ γ ρ) (B : Buckets κ γ) (q : ρ) : Buckets κ γ :=
  { B with count := Function.update B.count (P.key q) ((B.count (P.key q) + 1) % P.modulus) }

def Buckets.modify (B : Buckets κ γ) (c : κ × ℕ) (f : γ → γ) : Buckets κ γ :=
  { B with slot := Function.update B.slot c.1 (Function.update (B.slot c.1) c.2 (f (B.slot c.1 c.2))) }

variable (P : Placement κ γ ρ) (steps : ρ → List (γ → γ)) {n : ℕ}

def runSteps (fs : List (γ → γ)) (c : γ) : γ := fs.foldl (fun c f => f c) c

def taking (B : Buckets κ γ) (q : ρ) (qs : List ρ) : Worker κ γ ρ where
  pending := qs
  cell := (P.key q, B.count (P.key q))
  rest := if B.count (P.key q) < P.capacity then steps q else []

inductive Step : Shared κ γ ρ n → Shared κ γ ρ n → Prop
  | reserve {σ : Shared κ γ ρ n} (i : Fin n) (q : ρ) (qs : List ρ)
      (hrest : (σ.workers i).rest = []) (hpending : (σ.workers i).pending = q :: qs) :
      Step σ
        ⟨σ.buckets.reserve P q, Function.update σ.workers i (taking P steps σ.buckets q qs)⟩
  | write {σ : Shared κ γ ρ n} (i : Fin n) (f : γ → γ) (fs : List (γ → γ))
      (hrest : (σ.workers i).rest = f :: fs) :
      Step σ
        ⟨σ.buckets.modify (σ.workers i).cell f, Function.update σ.workers i { σ.workers i with rest := fs }⟩

/-- The steps of a request together make its write. -/
def Splits : Prop := ∀ q c, runSteps (steps q) c = P.write q c

def Shared.remaining (σ : Shared κ γ ρ n) : Multiset ρ := ∑ i, ((σ.workers i).pending : Multiset ρ)

variable {P steps}

theorem Buckets.slot_modify_self (B : Buckets κ γ) (c : κ × ℕ) (f : γ → γ) :
    (B.modify c f).slot c.1 c.2 = f (B.slot c.1 c.2) := by
  rw [modify]
  dsimp only
  rw [Function.update_self, Function.update_self]

theorem Buckets.slot_modify_of_ne (B : Buckets κ γ) {c : κ × ℕ} (f : γ → γ) {k : κ} {s : ℕ}
    (h : c ≠ (k, s)) : (B.modify c f).slot k s = B.slot k s := by
  rw [modify]
  dsimp only
  by_cases hk : c.1 = k
  · subst hk
    rw [Function.update_self, Function.update_of_ne]
    rintro rfl
    exact h rfl
  · rw [Function.update_of_ne fun heq => hk heq.symm]

/-- The state against the buckets `D` in which every request of the log is finished. -/
structure Serial (P : Placement κ γ ρ) (B₀ : Buckets κ γ) (total : Multiset ρ) (log : List ρ)
    (σ : Shared κ γ ρ n) : Prop where
  split : (log : Multiset ρ) + σ.remaining = total
  count : σ.buckets.count = (B₀.putAll P log).count
  taken : ∀ i, (σ.workers i).rest ≠ [] → (σ.workers i).cell.2 < σ.buckets.count (σ.workers i).cell.1
  apart : ∀ i j, i ≠ j → (σ.workers i).rest ≠ [] → (σ.workers j).rest ≠ [] →
    (σ.workers i).cell ≠ (σ.workers j).cell
  busy : ∀ i, (σ.workers i).rest ≠ [] →
    runSteps (σ.workers i).rest (σ.buckets.slot (σ.workers i).cell.1 (σ.workers i).cell.2) =
      (B₀.putAll P log).slot (σ.workers i).cell.1 (σ.workers i).cell.2
  idle : ∀ k s, (∀ i, (σ.workers i).rest ≠ [] → (σ.workers i).cell ≠ (k, s)) →
    σ.buckets.slot k s = (B₀.putAll P log).slot k s

theorem serial_init {B₀ : Buckets κ γ} {σ : Shared κ γ ρ n} (hB : σ.buckets = B₀)
    (hrest : ∀ i, (σ.workers i).rest = []) : Serial P B₀ σ.remaining [] σ where
  split := by rw [Multiset.coe_nil, zero_add]
  count := by rw [hB]; rfl
  taken i h := absurd (hrest i) h
  apart i _ _ h := absurd (hrest i) h
  busy i h := absurd (hrest i) h
  idle k s _ := by rw [hB]; rfl

omit [DecidableEq κ] in
theorem remaining_of_workers {σ σ' : Shared κ γ ρ n} {i : Fin n}
    (hother : ∀ j, j ≠ i → σ'.workers j = σ.workers j) :
    σ'.remaining + ((σ.workers i).pending : Multiset ρ) = ((σ'.workers i).pending : Multiset ρ) + σ.remaining := by
  have h1 := Finset.add_sum_erase Finset.univ (fun j => ((σ.workers j).pending : Multiset ρ)) (Finset.mem_univ i)
  have h2 := Finset.add_sum_erase Finset.univ (fun j => ((σ'.workers j).pending : Multiset ρ)) (Finset.mem_univ i)
  have h3 : ∑ j ∈ Finset.univ.erase i, ((σ'.workers j).pending : Multiset ρ) =
      ∑ j ∈ Finset.univ.erase i, ((σ.workers j).pending : Multiset ρ) :=
    Finset.sum_congr rfl fun j hj => by rw [hother j (Finset.ne_of_mem_erase hj)]
  rw [h3] at h2
  simp only [Shared.remaining]
  rw [← h1, ← h2, add_assoc, add_comm (∑ j ∈ Finset.univ.erase i, _)]

section Serial
variable {B₀ : Buckets κ γ} {total : Multiset ρ} {log : List ρ} {σ σ' : Shared κ γ ρ n} {i : Fin n}

theorem Serial.split_reserve (hI : Serial P B₀ total log σ) {q : ρ} {qs : List ρ}
    (hpending : (σ.workers i).pending = q :: qs)
    (hself : σ'.workers i = taking P steps σ.buckets q qs)
    (hother : ∀ j, j ≠ i → σ'.workers j = σ.workers j) :
    ((log ++ [q] : List ρ) : Multiset ρ) + σ'.remaining = total := by
  have hrem := remaining_of_workers hother
  rw [hpending, hself, taking, ← Multiset.cons_coe, ← Multiset.singleton_add] at hrem
  have hcancel : σ'.remaining + {q} = σ.remaining := by
    refine add_right_cancel (b := (qs : Multiset ρ)) ?_
    rw [add_assoc, hrem, add_comm]
  rw [← hI.split, ← hcancel, ← Multiset.coe_add, Multiset.coe_singleton, add_assoc,
    add_comm ({q} : Multiset ρ)]

/-- The counter of a bucket does not wrap. -/
theorem Serial.count_succ (hI : Serial P B₀ total log σ) {q : ρ} (hB₀ : B₀.count (P.key q) = 0)
    (hlog : log.length + 1 < P.modulus) :
    (σ.buckets.count (P.key q) + 1) % P.modulus = σ.buckets.count (P.key q) + 1 := by
  have hat := Buckets.length_at_le (P := P) (P.key q) log
  have hcount : (B₀.putAll P log).count (P.key q) = (P.at (P.key q) log).length :=
    Buckets.count_putAll hB₀ (by omega)
  rw [hI.count]
  apply Nat.mod_eq_of_lt
  omega

/-- Nobody writes to the next slot of a bucket. -/
theorem Serial.fresh (hI : Serial P B₀ total log σ) (k : κ) {j : Fin n}
    (hj : (σ.workers j).rest ≠ []) : (σ.workers j).cell ≠ (k, σ.buckets.count k) := by
  intro heq
  have htaken := hI.taken j hj
  rw [heq] at htaken
  exact absurd htaken (Nat.lt_irrefl _)

theorem Serial.slot_next (hI : Serial P B₀ total log σ) (k : κ) :
    σ.buckets.slot k (σ.buckets.count k) = (B₀.putAll P log).slot k (σ.buckets.count k) :=
  hI.idle _ _ fun _ => hI.fresh k

theorem Serial.slot_put (hI : Serial P B₀ total log σ) {q : ρ} {l : κ} {s : ℕ}
    (hne : (l, s) ≠ (P.key q, σ.buckets.count (P.key q))) :
    ((B₀.putAll P log).put P q).slot l s = (B₀.putAll P log).slot l s := by
  apply Buckets.slot_put_of_ne
  rintro ⟨rfl, rfl, -⟩
  rw [hI.count] at hne
  exact hne rfl

theorem Serial.reserve (hs : Splits P steps) (hB₀ : ∀ q, B₀.count (P.key q) = 0)
    (htotal : Multiset.card total < P.modulus) (hI : Serial P B₀ total log σ) {q : ρ} {qs : List ρ}
    (hrest : (σ.workers i).rest = []) (hpending : (σ.workers i).pending = q :: qs)
    (hbuckets : σ'.buckets = σ.buckets.reserve P q)
    (hself : σ'.workers i = taking P steps σ.buckets q qs)
    (hother : ∀ j, j ≠ i → σ'.workers j = σ.workers j) : Serial P B₀ total (log ++ [q]) σ' := by
  -- A reservation extends the log by the request it begins
  set k := P.key q with hk
  set D := B₀.putAll P log with hD
  have hsplit := hI.split_reserve hpending hself hother
  have hloglen : log.length + 1 < P.modulus := by
    have hcard := congrArg Multiset.card hsplit
    rw [Multiset.card_add, Multiset.coe_card, List.length_append, List.length_singleton] at hcard
    omega
  have hnowrap : (σ.buckets.count k + 1) % P.modulus = σ.buckets.count k + 1 :=
    hI.count_succ (hB₀ q) hloglen
  have hcount : σ.buckets.count k = D.count k := congrFun hI.count k
  have hput : B₀.putAll P (log ++ [q]) = D.put P q := Buckets.putAll_append_singleton B₀ log q
  have hnext : σ.buckets.slot k (D.count k) = D.slot k (D.count k) := hcount ▸ hI.slot_next k
  have hslots : σ'.buckets.slot = σ.buckets.slot := by rw [hbuckets]; rfl
  have hcellself : (σ'.workers i).cell = (k, σ.buckets.count k) := by rw [hself]; rfl
  refine ⟨hsplit, ?_, fun j hj => ?_, fun j l hjl hj hl => ?_, fun j hj => ?_, fun l s hidl => ?_⟩
  · rw [hput, hbuckets, Buckets.put, Buckets.reserve]
    dsimp only
    rw [hI.count]
  · rw [hbuckets, Buckets.reserve]
    dsimp only
    by_cases hji : j = i
    · rw [hji, hcellself, Function.update_self, hnowrap]
      exact Nat.lt_succ_self _
    · rw [hother j hji] at hj ⊢
      refine Nat.lt_of_lt_of_le (hI.taken j hj) ?_
      by_cases hjk : (σ.workers j).cell.1 = P.key q
      · rw [hjk, Function.update_self, hnowrap]
        exact Nat.le_succ _
      · rw [Function.update_of_ne hjk]
  · by_cases hji : j = i
    · rw [hother l fun h => hjl (hji.trans h.symm)] at hl ⊢
      rw [hji, hcellself]
      exact (hI.fresh k hl).symm
    · rw [hother j hji] at hj ⊢
      by_cases hli : l = i
      · rw [hli, hcellself]
        exact hI.fresh k hj
      · rw [hother l hli] at hl ⊢
        exact hI.apart j l hjl hj hl
  · rw [hput, hslots]
    by_cases hji : j = i
    · rw [hji] at hj ⊢
      rw [hcellself]
      rw [hself, taking] at hj ⊢
      dsimp only at hj ⊢
      split_ifs at hj ⊢ with hcap
      · rw [hcount] at hcap ⊢
        exact (hs q _).trans (by rw [hnext]; exact (Buckets.slot_put_self D q hcap).symm)
      · exact absurd rfl hj
    · rw [hother j hji] at hj ⊢
      rw [hI.slot_put (hI.fresh k hj)]
      exact hI.busy j hj
  · rw [hput, hslots]
    by_cases hls : (l, s) = (k, σ.buckets.count k)
    · obtain ⟨rfl, rfl⟩ := Prod.mk.inj hls
      have hi := hidl i
      rw [hcellself, hself, taking] at hi
      dsimp only at hi
      rw [hcount] at hi ⊢
      rw [hnext]
      split_ifs at hi with hcap
      · have hnil : steps q = [] := by
          by_contra hne
          exact hi hne rfl
        exact ((Buckets.slot_put_self D q hcap).trans (by rw [← hs q, hnil]; rfl)).symm
      · exact (Buckets.slot_put_of_ne D q fun h => hcap h.2.2).symm
    · rw [hI.slot_put hls]
      refine hI.idle l s fun j hj => ?_
      have hji : j ≠ i := by
        rintro rfl
        exact hj hrest
      have hcell := hidl j
      rw [hother j hji] at hcell
      exact hcell hj

theorem Serial.write (hI : Serial P B₀ total log σ) {f : γ → γ} {fs : List (γ → γ)}
    (hrest : (σ.workers i).rest = f :: fs)
    (hbuckets : σ'.buckets = σ.buckets.modify (σ.workers i).cell f)
    (hself : σ'.workers i = { σ.workers i with rest := fs })
    (hother : ∀ j, j ≠ i → σ'.workers j = σ.workers j) : Serial P B₀ total log σ' := by
  -- A write brings its worker's slot closer to the finished one and touches no other
  have hne : (σ.workers i).rest ≠ [] := by rw [hrest]; exact List.cons_ne_nil f fs
  have hbusy := hI.busy i hne
  rw [hrest] at hbusy
  have hcounts : σ'.buckets.count = σ.buckets.count := by rw [hbuckets]; rfl
  have hcell : ∀ j, (σ'.workers j).cell = (σ.workers j).cell := by
    intro j
    by_cases hji : j = i
    · rw [hji, hself]
    · rw [hother j hji]
  have hbefore : ∀ j, (σ'.workers j).rest ≠ [] → (σ.workers j).rest ≠ [] := by
    intro j hj
    by_cases hji : j = i
    · rwa [hji]
    · rwa [hother j hji] at hj
  refine ⟨?_, hcounts.trans hI.count, fun j hj => ?_, fun j l hjl hj hl => ?_, fun j hj => ?_,
    fun k s hidl => ?_⟩
  · have hrem := remaining_of_workers hother
    rw [hself, add_comm] at hrem
    rw [add_left_cancel hrem]
    exact hI.split
  · rw [hcounts, hcell]
    exact hI.taken j (hbefore j hj)
  · rw [hcell, hcell]
    exact hI.apart j l hjl (hbefore j hj) (hbefore l hl)
  · rw [hcell, hbuckets]
    by_cases hji : j = i
    · rw [hji, hself, Buckets.slot_modify_self]
      exact hbusy
    · rw [hother j hji] at hj ⊢
      rw [Buckets.slot_modify_of_ne _ _ (hI.apart i j (Ne.symm hji) hne hj)]
      exact hI.busy j hj
  · rw [hbuckets]
    by_cases hks : (σ.workers i).cell = (k, s)
    · have hfs : fs = [] := by
        by_contra hfs
        have := hidl i
        rw [hcell, hself] at this
        exact this hfs hks
      rw [hfs, hks] at hbusy
      rw [hks]
      exact (Buckets.slot_modify_self _ (k, s) f).trans hbusy
    · rw [Buckets.slot_modify_of_ne _ _ hks]
      refine hI.idle k s fun j hj => ?_
      by_cases hji : j = i
      · rwa [hji]
      · have := hidl j
        rw [hother j hji] at this
        exact this hj

theorem Serial.run (hs : Splits P steps) (hB₀ : ∀ q, B₀.count (P.key q) = 0)
    (htotal : Multiset.card total < P.modulus) (hI : Serial P B₀ total log σ)
    (hrun : Relation.ReflTransGen (Step P steps) σ σ') : ∃ log', Serial P B₀ total log' σ' := by
  induction hrun with
  | refl => exact ⟨log, hI⟩
  | tail _ hstep ih =>
    obtain ⟨log', hI'⟩ := ih
    cases hstep with
    | reserve i q qs hrest hpending =>
      exact ⟨_, hI'.reserve hs hB₀ htotal hrest hpending rfl (Function.update_self ..)
        fun j hj => Function.update_of_ne hj _ _⟩
    | write i f fs hrest =>
      exact ⟨_, hI'.write hrest rfl (Function.update_self ..) fun j hj => Function.update_of_ne hj _ _⟩

end Serial

/-- Every finished interleaving ends like some sequence of whole requests. -/
theorem serializes (hs : Splits P steps) {σ σ' : Shared κ γ ρ n}
    (hB₀ : ∀ q, σ.buckets.count (P.key q) = 0) (hrest : ∀ i, (σ.workers i).rest = [])
    (htotal : Multiset.card σ.remaining < P.modulus)
    (hrun : Relation.ReflTransGen (Step P steps) σ σ')
    (hdone : ∀ i, (σ'.workers i).pending = [] ∧ (σ'.workers i).rest = []) :
    ∃ log : List ρ, (log : Multiset ρ) = σ.remaining ∧ σ'.buckets = σ.buckets.putAll P log := by
  obtain ⟨log, hI⟩ := (serial_init rfl hrest).run hs hB₀ htotal hrun
  refine ⟨log, ?_, ?_⟩
  · have hzero : σ'.remaining = 0 := Finset.sum_eq_zero fun i _ => by rw [(hdone i).1, Multiset.coe_nil]
    rw [← hI.split, hzero, add_zero]
  · have hslot : σ'.buckets.slot = (σ.buckets.putAll P log).slot :=
      funext fun k => funext fun s => hI.idle k s fun i hi => absurd (hdone i).2 hi
    calc σ'.buckets = ⟨σ'.buckets.count, σ'.buckets.slot⟩ := rfl
      _ = σ.buckets.putAll P log := by rw [hslot, hI.count]

end Aion.Store
