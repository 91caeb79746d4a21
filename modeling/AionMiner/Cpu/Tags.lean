import AionMiner.Cpu.Ranges
import Mathlib.Logic.Relation

/-! The tree nodes that the rounds leave in the two heaps: the words that later rounds write lie in
front of them. -/

namespace Aion.Cpu
open Bits Equihash Solver Store Equi
open Relation (ReflTransGen)

section Code

/-- The state after digit `r` of a run from `e` on. -/
def digitsFrom (H : Blake2b) (e : Equi) : ℕ → Equi
  | 0 => e.digit0 H
  | r + 1 => (digitsFrom H e r).digit (r + 1)

def tagWord (M : Memory) (r b s : ℕ) : Word := M.heap (r % 2) b s (hashwords (hashsize r))

/-- The single writes of round `r`: a word of an entry, from word 0 to the tag, or a counter. Round
9 stores nothing in the heaps. -/
inductive Write (r : ℕ) : Memory → Memory → Prop
  | word (M : Memory) (b s w : ℕ) (x : Word) (hr : r ≤ 8) (hw : w ≤ prevhtunits r - dunits r) :
      Write r M (M.withHeap (r % 2) b s (Function.update (M.heap (r % 2) b s) w x))
  | count (M : Memory) (i b n : ℕ) : Write r M (M.withCount i b n)

mutual

/-- `listindices0`, each height from the memory after its round. -/
def listindices0At (E : ℕ → Memory) : ℕ → Word → Option (List ℕ)
  | 0, t => some [getindex t]
  | r + 1, t =>
    let tagi := hashwords (hashsize r)
    let t0 := (E r).heap 1 (bucketid t) (slotid0 t) tagi
    let t1 := (E r).heap 1 (bucketid t) (slotid1 t) tagi
    if !probDisjoint t0 t1 then none
    else joinIndices (1 <<< r) (listindices1At E r t0) (listindices1At E r t1)

def listindices1At (E : ℕ → Memory) : ℕ → Word → Option (List ℕ)
  | 0, _ => none
  | r + 1, t =>
    let tagi := hashwords (hashsize r)
    let t0 := (E r).heap 0 (bucketid t) (slotid0 t) tagi
    let t1 := (E r).heap 0 (bucketid t) (slotid1 t) tagi
    joinIndices (1 <<< r) (listindices0At E r t0) (listindices0At E r t1)

end

end Code

section Writes
variable {r r' : ℕ}

/-- Of two rounds on one heap, the later one has its tag in front of the earlier one's. -/
theorem nexthtunits_lt :
    ∀ r' ≤ 8, ∀ r < r', r % 2 = r' % 2 → nexthtunits r' < nexthtunits r := by decide

theorem heap_withHeap_update (M : Memory) (i b' s' : ℕ) (x : Word) {w w' : ℕ} (hne : w' ≠ w)
    (j b s : ℕ) :
    (M.withHeap i b' s' (Function.update (M.heap i b' s') w x)).heap j b s w' =
      M.heap j b s w' := by
  by_cases hj : j = i
  · subst hj
    rw [Memory.withHeap]
    dsimp only
    rw [Function.update_self]
    by_cases hb : b = b'
    · subst hb
      rw [Function.update_self]
      by_cases hs : s = s'
      · subst hs
        rw [Function.update_self, Function.update_of_ne hne]
      · rw [Function.update_of_ne hs]
    · rw [Function.update_of_ne hb]
  · rw [Checked.heap_withHeap_of_ne hj]

theorem Write.tagWord_eq (hlt : r < r') {M M' : Memory} (h : Write r' M M') (b s : ℕ) :
    tagWord M' r b s = tagWord M r b s := by
  cases h with
  | count i b' n => rfl
  | word b' s' w x hr hw =>
    rw [nexthtunits_eq (by omega) hr] at hw
    by_cases hpar : r % 2 = r' % 2
    · have hwords : nexthtunits r' < nexthtunits r := nexthtunits_lt r' hr r hlt hpar
      have hne : hashwords (hashsize r) ≠ w := (Nat.lt_of_le_of_lt hw hwords).ne'
      exact heap_withHeap_update M _ b' s' x hne _ b s
    · rw [tagWord, tagWord, Checked.heap_withHeap_of_ne hpar]

theorem tagWord_eq_of_writes (hlt : r < r') {M M' : Memory} (h : ReflTransGen (Write r') M M')
    (b s : ℕ) : tagWord M' r b s = tagWord M r b s := by
  induction h with
  | refl => rfl
  | tail _ hwrite ih => rw [hwrite.tagWord_eq hlt, ih]

end Writes

section Digits
variable {r : ℕ}

theorem Write.entry (hr8 : r ≤ 8) (M : Memory) (b s : ℕ) (slot : Slot) {w : ℕ}
    (hw : w ≤ prevhtunits r - dunits r) (x : Word) :
    Write r (M.withHeap (r % 2) b s slot) (M.withHeap (r % 2) b s (Function.update slot w x)) := by
  have h := Write.word (M.withHeap (r % 2) b s slot) b s w x hr8 hw
  rw [Checked.heap_withHeap, Checked.withHeap_withHeap] at h
  exact h

theorem writes_entry (hr8 : r ≤ 8) (M : Memory) (b s : ℕ) (hash0 hash1 : Slot) (t : Word) :
    ReflTransGen (Write r) M (M.withHeap (r % 2) b s
      (Function.update (storeXor r hash0 hash1 (M.heap (r % 2) b s))
        (prevhtunits r - dunits r) t)) := by
  have key : ∀ n ≤ prevhtunits r - dunits r, ReflTransGen (Write r) M (M.withHeap (r % 2) b s
      ((List.range n).foldl
        (fun xs i => Function.update xs i (hash0 (dunits r + i) ^^^ hash1 (dunits r + i)))
        (M.heap (r % 2) b s))) := by
    intro n hn
    induction n with
    | zero =>
      rw [List.range_zero, List.foldl_nil, Checked.withHeap_self]
    | succ n ih =>
      rw [List.range_succ, List.foldl_append, List.foldl_cons, List.foldl_nil]
      exact (ih (by omega)).tail (Write.entry hr8 M b s _ (by omega) _)
  exact (key _ le_rfl).tail (Write.entry hr8 M b s _ le_rfl t)

theorem writes_place {write : Slot → Slot} {b : ℕ}
    (h : ∀ M s, ReflTransGen (Write r) M (M.withHeap (r % 2) b s (write (M.heap (r % 2) b s))))
    (M : Memory) : ReflTransGen (Write r) M (M.place (r % 2) b write) := by
  have hcount := Write.count (r := r) M (r % 2) b ((M.nslots (r % 2) b + 1) % 2 ^ 32)
  rw [Memory.place, Memory.getslot]
  dsimp only
  split_ifs
  · exact .single hcount
  · exact (h _ _).head hcount

theorem writes_digitPair (hr8 : r ≤ 8) (b s0 s1 : ℕ) (e : Equi) :
    ReflTransGen (Write r) e.mem (digitPair r b s0 s1 e).mem := by
  rw [digitPair]
  dsimp only
  split_ifs
  · exact .refl
  · dsimp only
    apply writes_place
    intro M s
    exact writes_entry hr8 M _ s _ _ _

theorem writes_bucketLoop {xh : Equi → ℕ → ℕ} {body : ℕ → ℕ → Equi → Equi}
    (hbody : ∀ s0 s1 e, ReflTransGen (Write r) e.mem (body s0 s1 e).mem) (bsize : ℕ)
    (cd : Collisiondata) (e : Equi) :
    ReflTransGen (Write r) e.mem (bucketLoop xh body bsize cd e).mem := by
  refine Machine.reflTransGen_foldl (fun st : Equi × Collisiondata => st.1.mem)
    (fun st s1 => ?_) _ (e, cd.clear)
  exact Machine.reflTransGen_foldl Equi.mem (fun e s0 => hbody s0 s1 e) _ st.1

theorem writes_eachPair {pair : ℕ → ℕ → ℕ → Equi → Equi}
    (hpair : ∀ b s0 s1 e, ReflTransGen (Write r) e.mem (pair b s0 s1 e).mem) (e : Equi) :
    ReflTransGen (Write r) e.mem (eachPair r pair e).mem := by
  refine Machine.reflTransGen_foldl Equi.mem (fun e b => ?_) _ e
  refine .head (Write.count e.mem ((r - 1) % 2) b 0) ?_
  exact writes_bucketLoop (hpair b) _ _ { e with mem := e.mem.withCount ((r - 1) % 2) b 0 }

theorem writes_digit (hr : 1 ≤ r) (hr9 : r ≤ 9) (e : Equi) :
    ReflTransGen (Write r) e.mem (e.digit r).mem := by
  have hstore : r ≤ 8 → ReflTransGen (Write r) e.mem (eachPair r (digitPair r) e).mem :=
    fun hr8 => writes_eachPair (writes_digitPair hr8) e
  have hlast : ReflTransGen (Write 9) e.mem (eachPair 9 digit9Pair e).mem := by
    refine writes_eachPair (fun b s0 s1 e => ?_) e
    rw [digit9Pair_mem]
  rcases Nat.lt_or_eq_of_le hr9 with hlt | rfl
  · have h := hstore (Nat.le_of_lt_succ hlt)
    interval_cases r <;> exact h
  · exact hlast

end Digits

section Reads
variable {H : Blake2b} {E : ℕ → Memory} {M : Memory}

theorem tree_decode (t : Word) : tree (decode t).1 (decode t).2.1 (decode t).2.2 = t := by
  have hlt : t.toNat < 2 ^ 32 := t.isLt
  have hbuckets : nbuckets = 2 ^ 14 := rfl
  have hslots : nslotsMax = 2 ^ 9 := rfl
  apply BitVec.eq_of_toNat_eq
  rw [decode_eq]
  dsimp only
  rw [toNat_tree (by omega) (by omega) (by omega)]
  omega

/-- The tags that round `r` stores in bucket `b`: leaves at first, then pairs it joined. -/
def Stored (H : Blake2b) (base : Blake2bState) (E : ℕ → Memory) : ℕ → ℕ → Word → Prop
  | 0, b, t => t.toNat < nhashes ∧ (bucketid0 (leafHash H base t.toNat)).toNat = b
  | r + 1, b, t => ∃ p ∈ (E r).roundPairs layout (r + 1), (E r).pairKey layout (r + 1) p = b ∧
      t = tree p.1 p.2.1 p.2.2

theorem stored_tagWord {base : Blake2bState} (hE : Solver.Rounds layout H base E) {r : ℕ}
    (hr : r ≤ 8) {b : ℕ} (hb : b < nbuckets) {s : ℕ}
    (hs : s < min ((E r).nslots (r % 2) b) nslotsMax) :
    Stored H base E r b (tagWord (E r) r b s) := by
  rcases r with _ | r
  · obtain ⟨qs, hserved⟩ := hE.leafServed
    obtain ⟨hmem, hkey⟩ := Buckets.mem_of_at (hserved.entry b hb s hs).1
    exact ⟨(hserved.mem _).mp hmem, hkey⟩
  · have hlayer := hE.layer (r := r) (by omega)
    obtain ⟨qs, hserved⟩ := hE.served (Nat.lt_of_succ_le hr) hlayer
    obtain ⟨hmem, hkey⟩ := Buckets.mem_of_at (hserved.entry b hb s hs).1
    refine ⟨_, ?_, hkey, (tree_decode _).symm⟩
    exact (mem_roundPairs_iff (by omega) hlayer).mpr ((hserved.mem _).mp hmem)

/-- The listing of a tree reads nothing but tags: at height `r + 1` those of round `r`. -/
theorem listindices_eq_at (h : ∀ r ≤ 8, ∀ b s, tagWord M r b s = tagWord (E r) r b s) :
    ∀ r ≤ 9, ∀ t, (r % 2 = 0 → listindices0 M r t = listindices0At E r t) ∧
      (r % 2 = 1 → listindices1 M r t = listindices1At E r t) := by
  intro r
  induction r with
  | zero => exact fun _ t => ⟨fun _ => rfl, fun hodd => absurd hodd (Nat.zero_ne_one)⟩
  | succ r ih =>
    intro hr t
    have ih := ih (by omega)
    have htag := h r (by omega)
    refine ⟨fun heven => ?_, fun hodd => ?_⟩
    · have hpar : r % 2 = 1 := by omega
      simp only [tagWord, hpar] at htag
      rw [listindices0, listindices0At]
      simp only [htag, (ih _).2 hpar]
    · have hpar : r % 2 = 0 := by omega
      simp only [tagWord, hpar] at htag
      rw [listindices1, listindices1At]
      simp only [htag, (ih _).1 hpar]

end Reads

section Run
variable {H : Blake2b} {e : Equi}

theorem after_eq_digitsFrom (H : Blake2b) (header nonce : List Byte) (r : ℕ) :
    after H header nonce r = digitsFrom H (Equi.new.setnonce header nonce) r := by
  induction r with
  | zero => rfl
  | succ r ih => rw [after, digitsFrom, ih]

theorem rounds_digitsFrom (H : Blake2b) (hcount : ∀ i b, e.mem.nslots i b = 0) :
    Solver.Rounds layout H e.bstate fun r => (digitsFrom H e r).mem where
  start := ⟨e.mem, fun b _ => hcount 0 b, fun b _ => hcount 1 b, digit0_leavesOf H e⟩
  round r hr := (digit_roundOf (by omega) (by omega) (digitsFrom H e r)).1

theorem tagWord_digitsFrom (H : Blake2b) (e : Equi) {r r' : ℕ} (hle : r ≤ r') (hr' : r' ≤ 9)
    (b s : ℕ) : tagWord (digitsFrom H e r').mem r b s = tagWord (digitsFrom H e r).mem r b s := by
  induction r' with
  | zero => rw [Nat.le_zero.mp hle]
  | succ r' ih =>
    rcases Nat.lt_or_eq_of_le hle with hlt | rfl
    · rw [← ih (Nat.le_of_lt_succ hlt) (by omega)]
      exact tagWord_eq_of_writes hlt (writes_digit (by omega) hr' (digitsFrom H e r')) b s
    · rfl

/-- A digit is made of writes none of which changes the tag of an earlier round; so each tag is
still there when the last digit lists the trees, and is the one that its round stored. -/
theorem tags_kept (H : Blake2b) (e : Equi) :
    (∀ r r', r < r' → r' ≤ 9 →
      ReflTransGen (Write r') (digitsFrom H e (r' - 1)).mem (digitsFrom H e r').mem ∧
        ∀ M M', Write r' M M' → ∀ b s, tagWord M' r b s = tagWord M r b s) ∧
    (∀ r r', r ≤ r' → r' ≤ 9 → ∀ b s,
      tagWord (digitsFrom H e r').mem r b s = tagWord (digitsFrom H e r).mem r b s) ∧
    ((∀ i b, e.mem.nslots i b = 0) → ∀ r ≤ 8, ∀ b < nbuckets,
      ∀ s < min ((digitsFrom H e r).mem.nslots (r % 2) b) nslotsMax,
        Stored H e.bstate (fun r => (digitsFrom H e r).mem) r b
          (tagWord (digitsFrom H e r).mem r b s)) ∧
    ∀ M, ReflTransGen (Write 9) (digitsFrom H e 8).mem M → ∀ t,
      listindices1 M 9 t = listindices1At (fun r => (digitsFrom H e r).mem) 9 t := by
  refine ⟨fun r r' hlt hr' => ⟨?_, fun M M' h => h.tagWord_eq hlt⟩,
    fun r r' => tagWord_digitsFrom H e,
    fun hcount r hr b hb s => stored_tagWord (rounds_digitsFrom H hcount) hr hb, fun M hM t => ?_⟩
  · obtain ⟨r', rfl⟩ := Nat.exists_eq_add_of_lt hlt
    exact writes_digit (by omega) hr' (digitsFrom H e (r + r'))
  · refine (listindices_eq_at (fun r hr b s => ?_) 9 le_rfl t).2 rfl
    rw [tagWord_eq_of_writes (Nat.lt_succ_of_le hr) hM, tagWord_digitsFrom H e hr (by omega)]

/-- The run of a new solver: its counters are zero, and after the last digit the leaves are still in
their slots. -/
theorem tags_kept_after :
    (∀ i b, (Equi.new.setnonce [] []).mem.nslots i b = 0) ∧
      tagWord (after (fun _ _ => 0) [] [] 9).mem 0 0 0 =
        tagWord (after (fun _ _ => 0) [] [] 0).mem 0 0 0 := by
  refine ⟨fun i b => ?_, ?_⟩
  · by_cases hi : i = 0
    · subst hi
      rfl
    · rw [setnonce, Equi.new]
      dsimp only
      rw [Function.update_of_ne hi]
  · rw [after_eq_digitsFrom, after_eq_digitsFrom]
    exact (tags_kept _ _).2.1 0 9 (Nat.zero_le 9) le_rfl 0 0

end Run
end Aion.Cpu
