import AionMiner.Cpu.Digits
import AionMiner.Machine.Runs

/-! The CPU solver with every index checked: a run of it ends at the first index that is out of
range, counter that would wrap, or pair that a tree word cannot hold. No run does. -/

namespace Aion.Cpu.Checked
open Bits Equihash Solver Store Equi

section Arrays

/-- The words of a slot: `HASHWORDS0 + 1` in `heap0`, `HASHWORDS1 + 1` in `heap1`. -/
def slotWords (i : ℕ) : ℕ :=
  if i = 0 then (210 - 21 + 7 + 31) / 32 + 1 else (210 - 2 * 21 + 7 + 31) / 32 + 1

def InHeap (i b s w : ℕ) : Prop := b < nbuckets ∧ s < nslotsMax ∧ w < slotWords i

instance (i b s w : ℕ) : Decidable (InHeap i b s w) := inferInstanceAs (Decidable (_ ∧ _ ∧ _))

/-- Reads `heap0[b][s][w]` or `heap1[b][s][w]`. -/
def word (M : Memory) (i b s w : ℕ) : Option Word := if InHeap i b s w then some (M.heap i b s w) else none

/-- Reads `n` bytes of a slot, from byte `start` on. -/
def bytes (M : Memory) (i b s start : ℕ) : ℕ → Option (ℕ → Byte)
  | 0 => some fun _ => 0
  | n + 1 => do
    let read ← bytes M i b s start n
    let x ← word M i b s ((start + n) / 4)
    return Function.update read (start + n) (x.extractLsb' (8 * ((start + n) % 4)) 8)

def setWord (M : Memory) (i b s w : ℕ) (x : Word) : Option Memory :=
  if InHeap i b s w then some (M.withHeap i b s (Function.update (M.heap i b s) w x)) else none

/-- `memcpy` of `len` bytes to byte `dst` of a slot. -/
def memcpy (M : Memory) (i b s dst len : ℕ) (src : ℕ → Byte) : Option Memory :=
  if b < nbuckets ∧ s < nslotsMax ∧ dst + len ≤ 4 * slotWords i then
    some (M.withHeap i b s (memcpyBytes dst len src (M.heap i b s)))
  else none

/-- `nslots[i][b]++`, which must not wrap. -/
def getslot (M : Memory) (i b : ℕ) : Option (ℕ × Memory) :=
  if b < nbuckets ∧ M.nslots i b + 1 < 2 ^ 32 then some (M.getslot i b) else none

def getnslots (M : Memory) (i b : ℕ) : Option (ℕ × Memory) := if b < nbuckets then some (M.getnslots i b) else none

/-- Grabs the next slot of a bucket and writes to it unless the bucket is full. -/
def place (M : Memory) (i b : ℕ) (write : ℕ → Memory → Option Memory) : Option Memory := do
  let (slot, M) ← getslot M i b
  if slot ≥ nslotsMax then return M else write slot M

/-- The tree word of a pair, from which the pair must come back. -/
def tree (b s0 s1 : ℕ) : Option Word :=
  if decode (Solver.tree b s0 s1) = (b, s0, s1) then some (Solver.tree b s0 s1) else none

def addslot (cd : Collisiondata) (s1 xh : ℕ) : Option Collisiondata :=
  if s1 < nslotsMax ∧ xh < nrests then some (cd.addslot s1 xh) else none

def slot (cd : Collisiondata) : Option (ℕ × Collisiondata) := if cd.nextslot < nslotsMax then some cd.slot else none

end Arrays

section Digits

def drain : ℕ → Collisiondata → Option (List ℕ × Collisiondata)
  | 0, cd => some ([], cd)
  | fuel + 1, cd =>
    if cd.nextcollision then do
      let (s0, cd) ← slot cd
      let (s0s, cd) ← drain fuel cd
      return (s0 :: s0s, cd)
    else some ([], cd)

def bucketLoop {σ : Type} (xh : σ → ℕ → Option ℕ) (body : ℕ → ℕ → σ → Option σ) (bsize : ℕ) (cd : Collisiondata)
    (e : σ) : Option σ := do
  let (e, _) ← (List.range bsize).foldlM (fun (st : σ × Collisiondata) s1 => do
    let x ← xh st.1 s1
    let cd ← addslot st.2 s1 x
    let (s0s, cd) ← drain nslotsMax cd
    let e ← s0s.foldlM (fun e s0 => body s0 s1 e) st.1
    return (e, cd)) (e, cd.clear)
  return e

/-- The rest bits of a slot; no round needs more than two bytes for them. -/
def rest (r : ℕ) (M : Memory) (b s : ℕ) : Option ℕ := do
  let read ← bytes M ((r - 1) % 2) b s (prevbo r) 2
  return (xhash r read).toNat

def digit0Leaf (H : Blake2b) (block j : ℕ) (e : Equi) : Option Equi := do
  let hashes := H (e.bstate.update (le32 block))
  let ph k := hashes (j * hashLen + k)
  let bucketid := (bucketid0 ph).toNat
  let mem ← place e.mem 0 bucketid fun s mem => do
    let mem ← memcpy mem 0 bucketid s (4 * nexthtunits 0 - hashsize 0) (hashsize 0)
      fun k => ph (hashLen - hashsize 0 + k)
    setWord mem 0 bucketid s (nexthtunits 0) (BitVec.ofNat 32 (block * hashesPerBlake + j))
  return { e with mem := mem }

def digit0 (H : Blake2b) (e : Equi) : Option Equi :=
  (List.range nblocks).foldlM (fun e block =>
    (List.range hashesPerBlake).foldlM (fun e j => digit0Leaf H block j e) e) e

/-- The bucket of a xor needs up to four bytes of each slot. -/
def digitPair (r bucketid s0 s1 : ℕ) (e : Equi) : Option Equi := do
  let i := (r - 1) % 2
  let last0 ← word e.mem i bucketid s0 (prevhtunits r - 1)
  let last1 ← word e.mem i bucketid s1 (prevhtunits r - 1)
  if last0 == last1 then return e
  else
    let bytes0 ← bytes e.mem i bucketid s0 (prevbo r) 4
    let bytes1 ← bytes e.mem i bucketid s1 (prevbo r) 4
    let xorbucketid := (xorbucketid r bytes0 bytes1).toNat
    let mem ← place e.mem (r % 2) xorbucketid fun xorslot mem => do
      let mem ← (List.range (prevhtunits r - dunits r)).foldlM (fun mem k => do
        let x0 ← word mem i bucketid s0 (dunits r + k)
        let x1 ← word mem i bucketid s1 (dunits r + k)
        setWord mem (r % 2) xorbucketid xorslot k (x0 ^^^ x1)) mem
      let t ← tree bucketid s0 s1
      setWord mem (r % 2) xorbucketid xorslot (prevhtunits r - dunits r) t
    return { e with mem := mem }

mutual

def listindices0 (mem : Memory) : ℕ → Word → Option (Option (List ℕ))
  | 0, t => some (some [getindex t])
  | r + 1, t => do
    let tagi := hashwords (hashsize r)
    let t0 ← word mem 1 (bucketid t) (slotid0 t) tagi
    let t1 ← word mem 1 (bucketid t) (slotid1 t) tagi
    if !probDisjoint t0 t1 then return none
    else
      let first ← listindices1 mem r t0
      let second ← listindices1 mem r t1
      return joinIndices (1 <<< r) first second

def listindices1 (mem : Memory) : ℕ → Word → Option (Option (List ℕ))
  | 0, _ => some none
  | r + 1, t => do
    let tagi := hashwords (hashsize r)
    let t0 ← word mem 0 (bucketid t) (slotid0 t) tagi
    let t1 ← word mem 0 (bucketid t) (slotid1 t) tagi
    let first ← listindices0 mem r t0
    let second ← listindices0 mem r t1
    return joinIndices (1 <<< r) first second

end

def candidate (t : Word) (e : Equi) : Option Equi := do
  let e := { e with calls := e.calls ++ [t] }
  match ← listindices1 e.mem 9 t with
  | none => return e
  | some prf =>
    if duped prf then return e
    else return { e with
        nsols := (e.nsols + 1) % 2 ^ 32
        sols := if e.nsols < maxsols then Function.update e.sols e.nsols prf else e.sols }

def digit9Pair (bucketid s0 s1 : ℕ) (e : Equi) : Option Equi := do
  let bytes0 ← bytes e.mem 0 bucketid s0 (prevbo 9) 5
  let bytes1 ← bytes e.mem 0 bucketid s1 (prevbo 9) 5
  if equal210 bytes0 bytes1 then
    let t ← tree bucketid s0 s1
    candidate t e
  else return e

def eachPair (r : ℕ) (pair : ℕ → ℕ → ℕ → Equi → Option Equi) (e : Equi) : Option Equi :=
  (List.range nbuckets).foldlM (fun e bucketid => do
    let (bsize, mem) ← getnslots e.mem ((r - 1) % 2) bucketid
    bucketLoop (fun e s => rest r e.mem bucketid s) (pair bucketid) bsize ⟨fun _ => 0, fun _ => 0, 0⟩
      { e with mem := mem }) e

def digit (r : ℕ) (e : Equi) : Option Equi :=
  if 1 ≤ r ∧ r ≤ 8 then eachPair r (digitPair r) e
  else if r = 9 then eachPair 9 digit9Pair e
  else some e

def after (H : Blake2b) (header nonce : List Byte) : ℕ → Option Equi
  | 0 => digit0 H (Equi.new.setnonce header nonce)
  | r + 1 => (after H header nonce r).bind (digit (r + 1))

end Digits

section Reads
variable {M : Memory} {i b s : ℕ}

theorem word_eq (hb : b < nbuckets) (hs : s < nslotsMax) {w : ℕ} (hw : w < slotWords i) :
    word M i b s w = some (M.heap i b s w) := if_pos ⟨hb, hs, hw⟩

theorem bytes_eq (hb : b < nbuckets) (hs : s < nslotsMax) {start n : ℕ}
    (hn : start + n ≤ 4 * slotWords i) :
    ∃ read, bytes M i b s start n = some read ∧
    ∀ k < n, read (start + k) = slotByte (M.heap i b s) (start + k) := by
  induction n with
  | zero => exact ⟨_, rfl, fun k hk => absurd hk (Nat.not_lt_zero k)⟩
  | succ n ih =>
    obtain ⟨read, hread, hbytes⟩ := ih (by omega)
    refine ⟨Function.update read (start + n) (slotByte (M.heap i b s) (start + n)), ?_, ?_⟩
    · rw [bytes, hread, Option.bind_eq_bind, Option.bind_some, word_eq hb hs (by omega)]
      rfl
    · intro k hk
      rcases Nat.lt_succ_iff_lt_or_eq.mp hk with hlt | rfl
      · rw [Function.update_of_ne (by omega), hbytes k hlt]
      · rw [Function.update_self]

theorem xhash_congr (r : ℕ) {f g : ℕ → Byte} (h : ∀ k < 2, f (prevbo r + k) = g (prevbo r + k)) :
    xhash r f = xhash r g := by
  have h0 : f (prevbo r) = g (prevbo r) := h 0 (by decide)
  unfold xhash
  dsimp only
  rw [h0, h 1 (by decide)]

theorem xorbucketid_congr (r : ℕ) {f0 g0 f1 g1 : ℕ → Byte}
    (h0 : ∀ k < 4, f0 (prevbo r + k) = g0 (prevbo r + k))
    (h1 : ∀ k < 4, f1 (prevbo r + k) = g1 (prevbo r + k)) :
    xorbucketid r f0 f1 = xorbucketid r g0 g1 := by
  unfold xorbucketid
  dsimp only
  rw [h0 0 (by decide), h0 1 (by decide), h0 2 (by decide), h0 3 (by decide), h1 0 (by decide),
    h1 1 (by decide), h1 2 (by decide), h1 3 (by decide)]

theorem equal210_congr {f0 g0 f1 g1 : ℕ → Byte}
    (h0 : ∀ k < 5, f0 (prevbo 9 + k) = g0 (prevbo 9 + k))
    (h1 : ∀ k < 5, f1 (prevbo 9 + k) = g1 (prevbo 9 + k)) : equal210 f0 f1 = equal210 g0 g1 := by
  rw [equal210, equal210, h0 1 (by decide), h0 2 (by decide), h0 3 (by decide), h0 4 (by decide),
    h1 1 (by decide), h1 2 (by decide), h1 3 (by decide), h1 4 (by decide)]

/-- The slots have room for what each round reads and writes. -/
theorem slotWords_room : ∀ r < 10, 1 ≤ r → prevbo r + 5 ≤ 4 * slotWords ((r - 1) % 2) ∧ 1 ≤ prevhtunits r ∧
    prevhtunits r ≤ slotWords ((r - 1) % 2) ∧ dunits r ≤ prevhtunits r ∧
      prevhtunits r - dunits r < slotWords (r % 2) := by
  decide

theorem prevHash_eq (r : ℕ) (M : Memory) (b s : ℕ) :
    M.prevHash layout r b s = M.heap ((r - 1) % 2) b s := by
  funext w
  exact congrArg (M.heap ((r - 1) % 2) b s) (Nat.zero_add w)

theorem rest_eq {r : ℕ} (hr : 1 ≤ r) (hr9 : r ≤ 9) (hb : b < nbuckets) (hs : s < nslotsMax) :
    rest r M b s = some (M.rest layout r b s) := by
  obtain ⟨hroom, -⟩ := slotWords_room r (by omega) hr
  obtain ⟨read, hread, hbytes⟩ :=
    bytes_eq (M := M) (i := (r - 1) % 2) hb hs (n := 2) (show prevbo r + 2 ≤ _ by omega)
  rw [rest, hread, Memory.rest, prevHash_eq, ← xhash_congr r hbytes]
  rfl

/-- The rest bits name a list, whatever the bytes are. -/
theorem rest_lt {r : ℕ} (hr : 1 ≤ r) (hr9 : r ≤ 9) : M.rest layout r b s < nrests := by
  have hholds : Holds r (slotByte (M.prevHash layout r b s)) fun k =>
      slotByte (M.prevHash layout r b s) (prevbo r + (k - (27 - hashsize (r - 1)))) := fun k _ => by
    dsimp only
    rw [Nat.add_sub_cancel_left]
  rw [Memory.rest, xhash_eq hr hr9 hholds]
  exact restOf_lt _ _

theorem tree_eq {s0 s1 : ℕ} (hb : b < nbuckets) (h0 : s0 < nslotsMax) (h1 : s1 < nslotsMax) :
    tree b s0 s1 = some (Solver.tree b s0 s1) := if_pos (decode_tree hb h0 h1)

end Reads

section Writes
variable {M : Memory} {i i' b k s s0 s1 : ℕ} {x y : Slot}

theorem withHeap_self (M : Memory) (i b s : ℕ) : M.withHeap i b s (M.heap i b s) = M := by
  rw [Memory.withHeap, Function.update_eq_self, Function.update_eq_self, Function.update_eq_self]

theorem heap_withHeap : (M.withHeap i b s x).heap i b s = x := by
  rw [Memory.withHeap]
  dsimp only
  rw [Function.update_self, Function.update_self, Function.update_self]

theorem heap_withHeap_of_ne (hne : i ≠ i') :
    (M.withHeap i' b s x).heap i = M.heap i := Function.update_of_ne hne _ _

theorem withHeap_withHeap : (M.withHeap i b s x).withHeap i b s y = M.withHeap i b s y := by
  rw [Memory.withHeap, Memory.withHeap, Memory.withHeap]
  dsimp only
  rw [Function.update_self, Function.update_self, Function.update_idem, Function.update_idem,
    Function.update_idem]

theorem setWord_withHeap (hb : b < nbuckets) (hs : s < nslotsMax) {w : ℕ} (hw : w < slotWords i)
    (t : Word) :
    setWord (M.withHeap i b s x) i b s w t = some (M.withHeap i b s (Function.update x w t)) := by
  rw [setWord, if_pos ⟨hb, hs, hw⟩, withHeap_withHeap, heap_withHeap]

/-- The loop that stores the xor of two slots stays inside all three. -/
theorem foldlM_setWord (hne : i ≠ i') (hb : b < nbuckets) (h0 : s0 < nslotsMax)
    (h1 : s1 < nslotsMax) (hk : k < nbuckets) (hs : s < nslotsMax) (d : ℕ) :
    ∀ n, d + n ≤ slotWords i → n ≤ slotWords i' → (List.range n).foldlM (fun mem j => do
      let x0 ← word mem i b s0 (d + j)
      let x1 ← word mem i b s1 (d + j)
      setWord mem i' k s j (x0 ^^^ x1)) M =
      some (M.withHeap i' k s ((List.range n).foldl
        (fun xs j => Function.update xs j (M.heap i b s0 (d + j) ^^^ M.heap i b s1 (d + j)))
        (M.heap i' k s))) := by
  intro n
  induction n with
  | zero =>
    intro _ _
    rw [List.range_zero, List.foldl_nil, withHeap_self]
    rfl
  | succ n ih =>
    intro hn hn'
    rw [Machine.foldlM_range_succ, ih (by omega) (by omega), Option.bind_some, List.range_succ,
      List.foldl_append, List.foldl_cons, List.foldl_nil, word_eq hb h0 (by omega),
      word_eq hb h1 (by omega), heap_withHeap_of_ne hne]
    exact setWord_withHeap hk hs (by omega) _

end Writes

section Pairs
variable {r b s0 s1 : ℕ} {e : Equi}

/-- All that can go wrong with the next slot of a bucket is its counter. -/
theorem place_eq {M : Memory} {i k : ℕ} {f : Slot → Slot} {store : ℕ → Memory → Option Memory}
    (hk : k < nbuckets) (hcount : M.nslots i k + 1 < 2 ^ 32)
    (hstore : ∀ s < nslotsMax, ∀ M' : Memory, M'.heap = M.heap →
      store s M' = some (M'.withHeap i k s (f (M'.heap i k s)))) :
    place M i k store = some (M.place i k f) := by
  rw [place, getslot, if_pos ⟨hk, hcount⟩, Memory.place]
  change (if M.nslots i k ≥ nslotsMax then some _ else _) =
      some (if M.nslots i k ≥ nslotsMax then _ else _)
  by_cases hfull : M.nslots i k ≥ nslotsMax
  · rw [if_pos hfull, if_pos hfull]
  · rw [if_neg hfull, if_neg hfull]
    exact hstore _ (Nat.lt_of_not_le hfull) _ rfl

/-- One collision of two slots of a bucket, whatever the heaps hold. -/
theorem digitPair_eq (hr : 1 ≤ r) (hr8 : r ≤ 8) (hb : b < nbuckets) (h0 : s0 < nslotsMax)
    (h1 : s1 < nslotsMax) (hcount : ∀ k < nbuckets, e.mem.nslots (r % 2) k + 1 < 2 ^ 32) :
    digitPair r b s0 s1 e = some (Equi.digitPair r b s0 s1 e) := by
  obtain ⟨hbytes, hpos, hprev, hdunits, hnext⟩ := slotWords_room r (by omega) hr
  have hne : (r - 1) % 2 ≠ r % 2 := by omega
  obtain ⟨read0, hread0, hbytes0⟩ := bytes_eq (M := e.mem) (i := (r - 1) % 2) hb h0 (n := 4)
    (show prevbo r + 4 ≤ _ by omega)
  obtain ⟨read1, hread1, hbytes1⟩ := bytes_eq (M := e.mem) (i := (r - 1) % 2) hb h1 (n := 4)
    (show prevbo r + 4 ≤ _ by omega)
  have hxor := xorbucketid_congr r hbytes0 hbytes1
  have hlt : (xorbucketid r read0 read1).toNat < nbuckets := xorbucketid_lt hr hr8
  have hlast : prevhtunits r - 1 < slotWords ((r - 1) % 2) := by omega
  rw [digitPair, Equi.digitPair, prevHash_eq, prevHash_eq, equal, word_eq hb h0 hlast,
    word_eq hb h1 hlast, ← hxor]
  simp only [Option.bind_eq_bind, Option.bind_some]
  by_cases heq : (e.mem.heap ((r - 1) % 2) b s0 (prevhtunits r - 1) ==
      e.mem.heap ((r - 1) % 2) b s1 (prevhtunits r - 1)) = true
  · rw [if_pos heq, if_pos heq]
    rfl
  · rw [if_neg heq, if_neg heq, hread0, hread1, Option.bind_some, Option.bind_some]
    rw [place_eq (f := fun xs => Function.update (storeXor r (e.mem.heap ((r - 1) % 2) b s0)
      (e.mem.heap ((r - 1) % 2) b s1) xs) (prevhtunits r - dunits r) (Solver.tree b s0 s1)) hlt (hcount _ hlt)]
    · rfl
    · intro s hs M' hM'
      have hloop :=
        foldlM_setWord (M := M') hne hb h0 h1 hlt hs (dunits r) (prevhtunits r - dunits r) (by omega) (by omega)
      simp only [Option.bind_eq_bind] at hloop
      rw [hloop, Option.bind_some, tree_eq hb h0 h1, Option.bind_some,
        setWord_withHeap hlt hs hnext, hM']
      rfl

/-- One leaf. -/
theorem digit0Leaf_eq (H : Blake2b) (block j : ℕ)
    (hcount : ∀ k < nbuckets, e.mem.nslots 0 k + 1 < 2 ^ 32) :
    digit0Leaf H block j e = some (Equi.digit0Leaf H block j e) := by
  rw [digit0Leaf, Equi.digit0Leaf]
  dsimp only
  set ph := fun k => H (e.bstate.update (le32 block)) (j * hashLen + k) with hph
  have hlt : (bucketid0 ph).toNat < nbuckets := (bucketid0_eq ph).trans_lt (bucketOf_lt 0 ph)
  rw [place_eq (f := fun s => Function.update (memcpyBytes (4 * nexthtunits 0 - hashsize 0) (hashsize 0)
    (fun k => ph (hashLen - hashsize 0 + k)) s) (nexthtunits 0) (BitVec.ofNat 32 (block * hashesPerBlake + j))) hlt
    (hcount _ hlt)]
  · rfl
  · intro s hs M' hM'
    rw [memcpy, if_pos ⟨hlt, hs, by decide⟩, Option.bind_eq_bind, Option.bind_some,
      setWord_withHeap hlt hs (by decide)]

theorem listindices_eq (mem : Memory) : ∀ r ≤ 9, ∀ t,
    (r % 2 = 0 → listindices0 mem r t = some (Equi.listindices0 mem r t)) ∧
      (r % 2 = 1 → listindices1 mem r t = some (Equi.listindices1 mem r t)) := by
  have hbucket : ∀ t : Word, bucketid t < nbuckets := fun t => by
    have h := congrArg Prod.fst (decode_eq t)
    have hlt := t.isLt
    have h14 : nbuckets = 2 ^ 14 := rfl
    rw [decode] at h
    dsimp only at h
    omega
  have hslots : ∀ t : Word, slotid0 t < nslotsMax ∧ slotid1 t < nslotsMax := fun t => by
    have h := decode_eq t
    have h9 : nslotsMax = 2 ^ 9 := rfl
    rw [decode, Prod.mk.injEq, Prod.mk.injEq] at h
    omega
  have hroom : ∀ r < 9, hashwords (hashsize r) < slotWords (r % 2) := by decide
  intro r
  induction r with
  | zero => exact fun _ t => ⟨fun _ => rfl, fun h => absurd h (by decide)⟩
  | succ r ih =>
    intro hr t
    obtain ⟨h0, h1⟩ := hslots t
    have hroom := hroom r (by omega)
    refine ⟨fun hpar => ?_, fun hpar => ?_⟩
    · rw [show r % 2 = 1 by omega] at hroom
      rw [listindices0, Equi.listindices0]
      simp only [word_eq (hbucket t) h0 hroom, word_eq (hbucket t) h1 hroom, Option.bind_eq_bind,
        Option.bind_some]
      split
      · rfl
      · rw [(ih (by omega) _).2 (by omega), (ih (by omega) _).2 (by omega)]
        rfl
    · rw [show r % 2 = 0 by omega] at hroom
      rw [listindices1, Equi.listindices1]
      simp only [word_eq (hbucket t) h0 hroom, word_eq (hbucket t) h1 hroom, Option.bind_eq_bind,
        Option.bind_some]
      rw [(ih (by omega) _).1 (by omega), (ih (by omega) _).1 (by omega)]
      rfl

/-- The walk down a tree stays in range whatever words it meets. -/
theorem candidate_eq (t : Word) (e : Equi) : candidate t e = some (Equi.candidate t e) := by
  rw [candidate, Equi.candidate]
  dsimp only
  rw [(listindices_eq e.mem 9 (Nat.le_refl 9) t).2 (by decide), Option.bind_eq_bind,
    Option.bind_some]
  cases Equi.listindices1 e.mem 9 t with
  | none => rfl
  | some prf =>
    dsimp only
    split
    · rfl
    · rfl

theorem digit9Pair_eq (hb : b < nbuckets) (h0 : s0 < nslotsMax) (h1 : s1 < nslotsMax) :
    digit9Pair b s0 s1 e = some (Equi.digit9Pair b s0 s1 e) := by
  obtain ⟨read0, hread0, hbytes0⟩ := bytes_eq (M := e.mem) (i := 0) hb h0 (n := 5) (show prevbo 9 + 5 ≤ _ by decide)
  obtain ⟨read1, hread1, hbytes1⟩ := bytes_eq (M := e.mem) (i := 0) hb h1 (n := 5) (show prevbo 9 + 5 ≤ _ by decide)
  have hequal := equal210_congr hbytes0 hbytes1
  rw [digit9Pair, Equi.digit9Pair, prevHash_eq, prevHash_eq, hread0, hread1, tree_eq hb h0 h1]
  simp only [Option.bind_eq_bind, Option.bind_some, hequal]
  split
  · exact candidate_eq _ e
  · rfl

end Pairs

section Loops

theorem drain_eq {fuel : ℕ} {cd : Collisiondata} (h : ∀ s ∈ (cd.drain fuel).1, s < nslotsMax) :
    drain fuel cd = some (cd.drain fuel) := by
  induction fuel generalizing cd with
  | zero => rfl
  | succ fuel ih =>
    rw [drain, Collisiondata.drain]
    rw [Collisiondata.drain] at h
    split at h
    · next hc =>
      rw [if_pos hc, if_pos hc, slot, if_pos (h cd.nextslot List.mem_cons_self),
        Option.bind_eq_bind, Option.bind_some]
      dsimp only
      rw [ih fun s hs => h s (List.mem_cons_of_mem _ hs)]
      rfl
    · next hc => rw [if_neg hc, if_neg hc]

theorem length_pairsBelow_mono (xh : ℕ → ℕ) {m n : ℕ} (h : m ≤ n) :
    (pairsBelow xh m).length ≤ (pairsBelow xh n).length := by
  induction h with
  | refl => exact Nat.le_refl _
  | step _ ih =>
    rw [pairsBelow_succ, List.length_append]
    omega

/-- The collisions of a bucket: the lists hold slots of the bucket only, and the rest bits name them. -/
theorem bucketLoop_eq {σ : Type} {xh : σ → ℕ → ℕ} {read : σ → ℕ → Option ℕ} {body : ℕ → ℕ → σ → σ}
    {handle : ℕ → ℕ → σ → Option σ} {Inv : ℕ → σ → Prop} {bound n : ℕ} (cd : Collisiondata)
    (hread : ∀ e, ∀ s < n, read e s = some (xh e s)) (hlt : ∀ e s, xh e s < nrests)
    (hxh : ∀ e s0 s1 s, xh (body s0 s1 e) s = xh e s) (hn : n ≤ nslotsMax)
    (hbody : ∀ m e s0 s1, s0 < s1 → s1 < n → m < bound → Inv m e →
      handle s0 s1 e = some (body s0 s1 e) ∧ Inv (m + 1) (body s0 s1 e))
    {m : ℕ} {e : σ} (he : Inv m e) (hm : m + (pairsBelow (xh e) n).length ≤ bound) :
    bucketLoop read handle n cd e = some (Solver.bucketLoop xh body n cd e) ∧
      Inv (m + (pairsBelow (xh e) n).length) (Solver.bucketLoop xh body n cd e) := by
  rw [Solver.bucketLoop_eq xh body cd e hxh hn]
  have key : ∀ l ≤ n, ∃ cd', (List.range l).foldlM (fun (st : σ × Collisiondata) s1 => do
      let x ← read st.1 s1
      let cd ← addslot st.2 s1 x
      let (s0s, cd) ← drain nslotsMax cd
      let e ← s0s.foldlM (fun e s0 => handle s0 s1 e) st.1
      return (e, cd)) (e, cd.clear) = some ((pairsBelow (xh e) l).foldl (fun e p => body p.1 p.2 e) e, cd') ∧
      Linked (xh e) l cd' ∧ xh ((pairsBelow (xh e) l).foldl (fun e p => body p.1 p.2 e) e) = xh e ∧
      Inv (m + (pairsBelow (xh e) l).length) ((pairsBelow (xh e) l).foldl (fun e p => body p.1 p.2 e) e) := by
    intro l
    induction l with
    | zero => exact fun _ => ⟨cd.clear, rfl, linked_clear cd, rfl, he⟩
    | succ l ih =>
      intro hl
      obtain ⟨cd', hrun, hlinked, hsame, hinv⟩ := ih (by omega)
      set e' := (pairsBelow (xh e) l).foldl (fun e p => body p.1 p.2 e) e with he'
      have hl' : l < nslotsMax := by omega
      obtain ⟨hdrain, hnext⟩ := hlinked.visit hl'
      have hvisit : drain nslotsMax (cd'.addslot l (xh e l)) =
          some ((cd'.addslot l (xh e l)).drain nslotsMax) := by
        refine drain_eq fun s hs => ?_
        rw [hdrain] at hs
        exact Nat.lt_trans (mem_earlier.mp hs).1 hl'
      have hlen := length_pairsBelow_mono (xh e) hl
      rw [pairsBelow_succ, List.length_append, List.length_map] at hlen
      obtain ⟨hpairs, hinv'⟩ : (earlier (xh e) (xh e l) l).foldlM (fun e s0 => handle s0 l e) e' =
          some ((earlier (xh e) (xh e l) l).foldl (fun e s0 => body s0 l e) e') ∧ _ :=
        Machine.foldlM_eq_foldl (fun k e s0 hs0 hk hI => hbody k e s0 l (mem_earlier.mp hs0).1 (by omega) hk hI) hinv
          (by omega)
      refine ⟨_, ?_, hnext, ?_, ?_⟩
      · rw [Machine.foldlM_range_succ, hrun, Option.bind_some]
        simp only [hread e' l (by omega), hsame, addslot, if_pos (And.intro hl' (hlt e l)), hvisit,
          hdrain, hpairs, Option.bind_eq_bind, Option.bind_some]
        rw [pairsBelow_succ, List.foldl_append, List.foldl_map]
        rfl
      · rw [pairsBelow_succ, List.foldl_append, List.foldl_map, ← he']
        exact (foldl_body_rest hxh _ l e').trans hsame
      · rw [pairsBelow_succ, List.foldl_append, List.foldl_map, List.length_append, List.length_map,
          ← Nat.add_assoc]
        exact hinv'
  obtain ⟨cd', hrun, -, -, hinv⟩ := key n (Nat.le_refl n)
  rw [bucketLoop, hrun]
  exact ⟨rfl, hinv⟩

end Loops

section Digits
variable {r : ℕ} {e : Equi}

/-- At most `n` entries were asked of each bucket of heap `i`. -/
def Asked (i n : ℕ) (e : Equi) : Prop := ∀ k < nbuckets, e.mem.nslots i k ≤ n

theorem Asked.mono {i n n' : ℕ} (h : Asked i n e) (hn : n ≤ n') :
    Asked i n' e := fun k hk => (h k hk).trans hn

theorem Asked.room {i n : ℕ} (h : Asked i n e) (hn : n + 1 < 2 ^ 32) :
    ∀ k < nbuckets, e.mem.nslots i k + 1 < 2 ^ 32 :=
  fun k hk => Nat.lt_of_le_of_lt (Nat.succ_le_succ (h k hk)) hn

theorem nslots_place_le (M : Memory) (i k : ℕ) (f : Slot → Slot) (k' : ℕ) :
    (M.place i k f).nslots i k' ≤ M.nslots i k' + 1 := by
  have hcount : (M.place i k f).nslots i k' = (M.withCount i k ((M.nslots i k + 1) % 2 ^ 32)).nslots i k' := by
    rw [Memory.place]
    dsimp only [Memory.getslot]
    split <;> rfl
  rw [hcount, Memory.withCount]
  dsimp only
  rw [Function.update_self]
  by_cases hk : k' = k
  · rw [hk, Function.update_self]
    exact Nat.mod_le _ _
  · rw [Function.update_of_ne hk]
    exact Nat.le_succ _

theorem Asked.digitPair {n : ℕ} (h : Asked (r % 2) n e) (b s0 s1 : ℕ) :
    Asked (r % 2) (n + 1) (Equi.digitPair r b s0 s1 e) := by
  rw [Equi.digitPair]
  dsimp only
  split
  · exact h.mono (Nat.le_succ n)
  · exact fun k hk => (nslots_place_le e.mem _ _ _ k).trans (Nat.succ_le_succ (h k hk))

theorem digit0_eq (H : Blake2b) (h : Asked 0 0 e) : digit0 H e = some (Equi.digit0 H e) := by
  have hleaf : ∀ n e, n < nblocks * hashesPerBlake → ∀ block j, Asked 0 n e →
      digit0Leaf H block j e = some (Equi.digit0Leaf H block j e) ∧
      Asked 0 (n + 1) (Equi.digit0Leaf H block j e) := by
    intro n e hn block j hasked
    have hbound : nblocks * hashesPerBlake + 1 < 2 ^ 32 := by decide
    exact ⟨digit0Leaf_eq H block j (hasked.room (by omega)),
      fun k hk => (nslots_place_le e.mem 0 _ _ k).trans (Nat.succ_le_succ (hasked k hk))⟩
  have hblock : ∀ n e, ∀ block ∈ List.range nblocks, n < nblocks → Asked 0 (n * hashesPerBlake) e →
      (List.range hashesPerBlake).foldlM (fun e j => digit0Leaf H block j e) e =
        some ((List.range hashesPerBlake).foldl (fun e j => Equi.digit0Leaf H block j e) e) ∧
      Asked 0 ((n + 1) * hashesPerBlake)
        ((List.range hashesPerBlake).foldl (fun e j => Equi.digit0Leaf H block j e) e) := by
    intro n e block _ hn hasked
    have hle := Nat.mul_le_mul_right hashesPerBlake (Nat.succ_le_of_lt hn)
    rw [Nat.succ_mul] at hle
    have hleaves : ∀ n e, ∀ j ∈ List.range hashesPerBlake, n < nblocks * hashesPerBlake →
        Asked 0 n e → digit0Leaf H block j e = some (Equi.digit0Leaf H block j e) ∧
        Asked 0 (n + 1) (Equi.digit0Leaf H block j e) :=
      fun n e j _ hn => hleaf n e hn block j
    have hrun := Machine.foldlM_eq_foldl hleaves hasked (by rwa [List.length_range])
    rwa [List.length_range, ← Nat.succ_mul] at hrun
  have hstart : Asked 0 (0 * hashesPerBlake) e := by rwa [Nat.zero_mul]
  exact (Machine.foldlM_eq_foldl hblock hstart (by rw [List.length_range, Nat.zero_add])).1

/-- A round over any handler that only fails on counters: no bucket has more than 130816 pairs. -/
theorem eachPair_eq (hr : 1 ≤ r) (hr9 : r ≤ 9) {pair : ℕ → ℕ → ℕ → Equi → Equi}
    {handle : ℕ → ℕ → ℕ → Equi → Option Equi}
    {Inv : ℕ → Equi → Prop}
    (hheap : ∀ b s0 s1 e, (pair b s0 s1 e).mem.heap ((r - 1) % 2) = e.mem.heap ((r - 1) % 2))
    (hclear : ∀ n e b, Inv n e → Inv n { e with mem := e.mem.withCount ((r - 1) % 2) b 0 })
    (hmono : ∀ n n' e, n ≤ n' → Inv n e → Inv n' e)
    (hpair : ∀ n e b s0 s1, b < nbuckets → s0 < s1 → s1 < nslotsMax → n < nbuckets * 130816 → Inv n e →
      handle b s0 s1 e = some (pair b s0 s1 e) ∧ Inv (n + 1) (pair b s0 s1 e)) (he : Inv 0 e) :
    eachPair r handle e = some (Equi.eachPair r pair e) := by
  have hbucket : ∀ n e, ∀ b ∈ List.range nbuckets, n < nbuckets → Inv (n * 130816) e →
      ((getnslots e.mem ((r - 1) % 2) b).bind fun x =>
        bucketLoop (fun e s => rest r e.mem b s) (handle b) x.1 ⟨fun _ => 0, fun _ => 0, 0⟩ { e with mem := x.2 }) =
      some (Solver.bucketLoop (fun e s => e.mem.rest layout r b s) (pair b) (e.mem.getnslots ((r - 1) % 2) b).1
        ⟨fun _ => 0, fun _ => 0, 0⟩ { e with mem := (e.mem.getnslots ((r - 1) % 2) b).2 }) ∧
      Inv ((n + 1) * 130816) (Solver.bucketLoop (fun e s => e.mem.rest layout r b s) (pair b)
        (e.mem.getnslots ((r - 1) % 2) b).1 ⟨fun _ => 0, fun _ => 0, 0⟩
        { e with mem := (e.mem.getnslots ((r - 1) % 2) b).2 }) := by
    intro n e b hb hn hinv
    have hb := List.mem_range.mp hb
    have hcap : (e.mem.getnslots ((r - 1) % 2) b).1 ≤ nslotsMax := Nat.min_le_right _ _
    rw [getnslots, if_pos hb, Option.bind_some]
    generalize (e.mem.getnslots ((r - 1) % 2) b).1 = size at *
    have hfew : ∀ xh : ℕ → ℕ, (pairsBelow xh size).length ≤ 130816 := by
      intro xh
      have h512 : size ≤ 512 := hcap
      have hmul := Nat.mul_le_mul h512 (show size - 1 ≤ 511 by omega)
      have hle := length_pairsBelow_le xh size
      omega
    have hbound := Nat.mul_le_mul_right 130816 (Nat.succ_le_of_lt hn)
    rw [Nat.succ_mul] at hbound ⊢
    have hread : ∀ e : Equi, ∀ s < size, rest r e.mem b s = some (e.mem.rest layout r b s) :=
      fun e s hs => rest_eq hr hr9 hb (Nat.lt_of_lt_of_le hs hcap)
    have hbody : ∀ m e s0 s1, s0 < s1 → s1 < size → m < nbuckets * 130816 → Inv m e →
        handle b s0 s1 e = some (pair b s0 s1 e) ∧ Inv (m + 1) (pair b s0 s1 e) :=
      fun m e s0 s1 h01 hs1 hm hI => hpair m e b s0 s1 hb h01 (Nat.lt_of_lt_of_le hs1 hcap) hm hI
    obtain ⟨hrun, hfinal⟩ := bucketLoop_eq ⟨fun _ => 0, fun _ => 0, 0⟩ hread (fun e s => rest_lt hr hr9)
      (fun e s0 s1 s => Memory.rest_congr (hheap b s0 s1 e) b s) hcap hbody (hclear _ e b hinv)
      (Nat.le_trans (Nat.add_le_add_left (hfew _) _) hbound)
    exact ⟨hrun, hmono _ _ _ (Nat.add_le_add_left (hfew _) _) hfinal⟩
  have hstart : Inv (0 * 130816) e := by rwa [Nat.zero_mul]
  exact (Machine.foldlM_eq_foldl hbucket hstart (by rw [List.length_range, Nat.zero_add])).1

theorem digit_eq (h : 1 ≤ r → r ≤ 8 → Asked (r % 2) 0 e) : digit r e = some (Equi.digit r e) := by
  rw [digit]
  split_ifs with hr hr9
  · obtain ⟨hr1, hr8⟩ := hr
    have hne : (r - 1) % 2 ≠ r % 2 := by omega
    have hround : Equi.digit r e = Equi.eachPair r (Equi.digitPair r) e := by interval_cases r <;> rfl
    have hbound : nbuckets * 130816 + 1 < 2 ^ 32 := by decide
    rw [hround]
    refine eachPair_eq hr1 (by omega) (digitPair_heap hne) (fun n e b hI k hk => ?_) (fun n n' e hn hI => hI.mono hn)
      (fun n e b s0 s1 hb h01 hs1 hn hI => ⟨?_, hI.digitPair b s0 s1⟩) (h hr1 hr8)
    · have hcount : (e.mem.withCount ((r - 1) % 2) b 0).nslots (r % 2) = e.mem.nslots (r % 2) :=
        Function.update_of_ne hne.symm _ _
      rw [hcount]
      exact hI k hk
    · exact digitPair_eq hr1 hr8 hb (Nat.lt_trans h01 hs1) hs1 (hI.room (by omega))
  · subst hr9
    have hround : Equi.digit 9 e = Equi.eachPair 9 Equi.digit9Pair e := rfl
    rw [hround]
    have hpair : ∀ n e b s0 s1, b < nbuckets → s0 < s1 → s1 < nslotsMax →
        n < nbuckets * 130816 → True → digit9Pair b s0 s1 e =
        some (Equi.digit9Pair b s0 s1 e) ∧ True :=
      fun n e b s0 s1 hb h01 hs1 _ _ => ⟨digit9Pair_eq hb (Nat.lt_trans h01 hs1) hs1, trivial⟩
    exact eachPair_eq (by decide) (by decide) (fun b s0 s1 e => by rw [digit9Pair_mem]) (fun _ _ _ h => h)
      (fun _ _ _ _ h => h) hpair trivial
  · have hid : Equi.digit r e = e := by
      unfold Equi.digit
      split
      all_goals first | omega | rfl
    rw [hid]

/-- No index of a solve is out of range, no counter of a bucket wraps, and every pair comes back
from its tree word: with all of this checked, the digits do exactly what they do unchecked. -/
theorem after_eq_some (H : Blake2b) (header nonce : List Byte) (r : ℕ) :
    after H header nonce r = some (Cpu.after H header nonce r) := by
  induction r with
  | zero => exact digit0_eq H fun _ _ => Nat.le_refl 0
  | succ r ih =>
    rw [after, ih, Option.bind_some, Cpu.after]
    refine digit_eq fun _ hr8 => ?_
    have hempty := ((rounds_after H header nonce).layer (show r ≤ 8 by omega)).empty
    exact fun k hk => (hempty k hk).le

end Digits
end Aion.Cpu.Checked
