import AionMiner.Payments.Send
import AionMiner.VarDiff.RingBuffer

/-! `manageClient`: what a client's submits do to its buffer. Numbers are exact. -/

namespace Aion.VarDiff

section Code

/-- A number that a division may have made infinite, or none at all. -/
inductive Number where
  | finite (q : ℚ)
  | infinity (negative : Bool)
  | nan
  deriving DecidableEq

def Number.div (a b : ℚ) : Number :=
  if b = 0 then if a = 0 then .nan else .infinity (a < 0) else .finite (a / b)

def Number.mul (x : Number) (q : ℚ) : Number :=
  match x with
  | .finite p => .finite (p * q)
  | .infinity negative => if q = 0 then .nan else .infinity (negative != decide (q < 0))
  | .nan => .nan

def Number.lt (x : Number) (q : ℚ) : Bool :=
  match x with
  | .finite p => p < q
  | .infinity negative => negative
  | .nan => false

def Number.gt (x : Number) (q : ℚ) : Bool :=
  match x with
  | .finite p => q < p
  | .infinity negative => !negative
  | .nan => false

def toFixed (num : Number) (len : ℕ) : Number :=
  match num with
  | .finite q => .finite (Payments.toFixed len q)
  | num => num

structure Options where
  targetTime : ℚ
  retargetTime : ℚ
  variancePercent : ℚ
  minDiff : ℚ
  maxDiff : ℚ
  x2mode : Bool

def Options.variance (o : Options) : ℚ := o.targetTime * (o.variancePercent / 100)

def Options.bufferSize (o : Options) : ℚ := o.retargetTime / o.targetTime * 4

def Options.tMin (o : Options) : ℚ := o.targetTime - o.variance

def Options.tMax (o : Options) : ℚ := o.targetTime + o.variance

/-- The clock, in milliseconds, and the client's difficulty at a submit. -/
structure Submit where
  now : ℤ
  difficulty : ℚ

/-- `(now / 1000) | 0`. -/
def seconds (now : ℤ) : ℤ := (now.tdiv 1000).bmod (2 ^ 32)

/-- What is called of a buffer, and the averages it returns. -/
inductive Call where
  | new
  | append (x : ℚ)
  | avg (value : ℚ)
  | clear

structure Managed where
  lastTs : ℤ
  lastRtc : ℚ
  timeBuffer : RingBuffer

structure State where
  managed : Option Managed
  log : List Call
  emitted : List Number

def Options.retarget (o : Options) (difficulty avg : ℚ) : Option Number :=
  let ddiff := Number.div o.targetTime avg
  if o.tMax < avg ∧ o.minDiff < difficulty then
    let ddiff := if o.x2mode then .finite (1 / 2) else ddiff
    let ddiff := if (ddiff.mul difficulty).lt o.minDiff then Number.div o.minDiff difficulty
      else ddiff
    some (toFixed (ddiff.mul difficulty) 8)
  else if avg < o.tMin then
    let ddiff := if o.x2mode then .finite 2 else ddiff
    let ddiff := if (ddiff.mul difficulty).gt o.maxDiff then Number.div o.maxDiff difficulty
      else ddiff
    some (toFixed (ddiff.mul difficulty) 8)
  else none

def onSubmit (o : Options) (s : State) (submit : Submit) : Option State :=
  let ts := seconds submit.now
  -- a `lastRtc` of zero passes for none
  match s.managed.filter fun m => m.lastRtc ≠ 0 with
  | none => some ⟨some ⟨ts, ts - o.retargetTime / 2, .empty⟩, s.log ++ [.new], s.emitted⟩
  | some m =>
    let sinceLast : ℚ := ((ts - m.lastTs : ℤ) : ℚ)
    let timeBuffer := m.timeBuffer.append o.bufferSize sinceLast
    let log := s.log ++ [.append sinceLast]
    if ts - m.lastRtc < o.retargetTime ∧ 0 < timeBuffer.size o.bufferSize then
      some ⟨some ⟨ts, m.lastRtc, timeBuffer⟩, log, s.emitted⟩
    else
      (timeBuffer.avg o.bufferSize).map fun avg =>
        match o.retarget submit.difficulty avg with
        | none => ⟨some ⟨ts, ts, timeBuffer⟩, log ++ [.avg avg], s.emitted⟩
        | some newDiff =>
          ⟨some ⟨ts, ts, .empty⟩, log ++ [.avg avg] ++ [.clear], s.emitted ++ [newDiff]⟩

def manageClient (o : Options) (submits : List Submit) : Option State :=
  submits.foldlM (onSubmit o) ⟨none, [], []⟩

end Code

section Window

def recorded (log : List Call) : List ℚ :=
  log.foldl
    (fun xs call =>
      match call with
      | .new => []
      | .append x => xs ++ [x]
      | .avg _ => xs
      | .clear => [])
    []

def Averaged (bufferSize : ℚ) (log : List Call) : Prop :=
  ∀ before value after, log = before ++ .avg value :: after →
    value = mean (window bufferSize (recorded before))

/-- The averages of a run are those of the window, and the buffer has no more entries than its
size. -/
def Slides (o : Options) (submits : List Submit) : Prop :=
  ∃ s, manageClient o submits = some s ∧ Averaged o.bufferSize s.log ∧
    ∀ m ∈ s.managed, (m.timeBuffer.data.length : ℚ) ≤ o.bufferSize

theorem recorded_append (log : List Call) (x : ℚ) :
    recorded (log ++ [.append x]) = recorded log ++ [x] :=
  List.foldl_append

theorem recorded_avg (log : List Call) (value : ℚ) :
    recorded (log ++ [.avg value]) = recorded log :=
  List.foldl_append

theorem recorded_new (log : List Call) : recorded (log ++ [.new]) = [] := List.foldl_append

theorem recorded_clear (log : List Call) : recorded (log ++ [.clear]) = [] := List.foldl_append

theorem averaged_append {bufferSize : ℚ} {log : List Call} {call : Call}
    (h : Averaged bufferSize log)
    (hcall : ∀ value, call = .avg value → value = mean (window bufferSize (recorded log))) :
    Averaged bufferSize (log ++ [call]) := by
  intro before value after hlog
  rcases List.eq_nil_or_concat after with rfl | ⟨more, last, rfl⟩
  · obtain ⟨rfl, hlast⟩ := List.append_inj' hlog rfl
    exact hcall value (List.cons.inj hlast).1
  · rw [List.concat_eq_append, ← List.cons_append, ← List.append_assoc] at hlog
    exact h before value more (List.append_inj' hlog rfl).1

end Window

section Runs

structure Sliding (size : ℕ) (s : State) : Prop where
  represents : ∀ m ∈ s.managed, Represents size m.timeBuffer (recorded s.log)
  averaged : Averaged size s.log

variable {o : Options} {size : ℕ}

theorem sliding_some {lastTs : ℤ} {lastRtc : ℚ} {b : RingBuffer} {log : List Call}
    {emitted : List Number} (h : Represents size b (recorded log)) (hlog : Averaged size log) :
    Sliding size ⟨some ⟨lastTs, lastRtc, b⟩, log, emitted⟩ :=
  ⟨fun _ hm => Option.mem_some_iff.mp hm ▸ h, hlog⟩

theorem sliding_onSubmit (hsize : o.bufferSize = size) (hpos : 0 < size) {s : State}
    (h : Sliding size s) (submit : Submit) :
    ∃ s', onSubmit o s submit = some s' ∧ Sliding size s' := by
  have hempty : ∀ log call, recorded (log ++ [call]) = [] →
      Represents size RingBuffer.empty (recorded (log ++ [call])) :=
    fun log call hnil => hnil ▸ represents_empty hpos
  rw [onSubmit]
  dsimp only
  cases hm : s.managed.filter fun m => m.lastRtc ≠ 0 with
  | none =>
    refine ⟨_, rfl, sliding_some (hempty _ _ (recorded_new _)) (averaged_append h.averaged ?_)⟩
    rintro value ⟨⟩
  | some m =>
    obtain ⟨hmem, -⟩ := Option.filter_eq_some_iff.mp hm
    dsimp only
    generalize ((seconds submit.now - m.lastTs : ℤ) : ℚ) = sinceLast
    rw [hsize]
    have happend : Represents size (m.timeBuffer.append size sinceLast)
        (recorded (s.log ++ [.append sinceLast])) := by
      rw [recorded_append]
      exact (h.represents m hmem).append sinceLast
    have haveraged : Averaged size (s.log ++ [.append sinceLast]) := by
      apply averaged_append h.averaged
      rintro value ⟨⟩
    split_ifs with hquiet
    · exact ⟨_, rfl, sliding_some happend haveraged⟩
    · have hne : recorded (s.log ++ [.append sinceLast]) ≠ [] := by
        rw [recorded_append]
        exact List.concat_ne_nil sinceLast _
      have hvalue : Averaged size (s.log ++ [.append sinceLast] ++
          [.avg (mean (window size (recorded (s.log ++ [.append sinceLast]))))]) := by
        apply averaged_append haveraged
        rintro value ⟨⟩
        rfl
      rw [happend.avg hne, Option.map_some]
      refine ⟨_, rfl, ?_⟩
      split
      · exact sliding_some (by rw [recorded_avg]; exact happend) hvalue
      · refine sliding_some (hempty _ _ (recorded_clear _)) (averaged_append hvalue ?_)
        rintro value ⟨⟩

theorem sliding_manageClient (hsize : o.bufferSize = size) (hpos : 0 < size)
    (submits : List Submit) : ∃ s, manageClient o submits = some s ∧ Sliding size s := by
  have hrun : ∀ s, Sliding size s → ∃ s', submits.foldlM (onSubmit o) s = some s' ∧
      Sliding size s' := by
    induction submits with
    | nil => exact fun s h => ⟨s, rfl, h⟩
    | cons submit submits ih =>
      intro s h
      obtain ⟨s₁, hs₁, h₁⟩ := sliding_onSubmit hsize hpos h submit
      rw [List.foldlM_cons, hs₁]
      exact ih s₁ h₁
  exact hrun _ ⟨fun m hm => absurd hm (Option.not_mem_none m), fun before value after hlog =>
    absurd hlog.symm (List.append_ne_nil_of_right_ne_nil before (List.cons_ne_nil _ _))⟩

/-- With no whole size a buffer never gets full. -/
theorem append_fraction {maxSize : ℚ} (hfraction : ∀ k : ℕ, maxSize ≠ k) (data : List ℚ) (x : ℚ) :
    RingBuffer.append maxSize ⟨data, data.length, false⟩ x =
      ⟨data ++ [x], (data ++ [x]).length, false⟩ := by
  rw [RingBuffer.append, if_neg Bool.false_ne_true, if_neg (hfraction _).symm, List.length_append]
  rfl

/-- Submits within one second retarget nothing. -/
theorem onSubmit_quiet (hretarget : 0 < o.retargetTime) (hfraction : ∀ k : ℕ, o.bufferSize ≠ k)
    (data : List ℚ) (log : List Call) :
    onSubmit o ⟨some ⟨0, 0 - o.retargetTime / 2, ⟨data, data.length, false⟩⟩, log, []⟩ ⟨0, 0⟩ =
      some ⟨some ⟨0, 0 - o.retargetTime / 2, ⟨data ++ [0], (data ++ [0]).length, false⟩⟩,
        log ++ [.append 0], []⟩ := by
  have hseconds : seconds 0 = 0 := rfl
  have hnonzero : 0 - o.retargetTime / 2 ≠ 0 := by linarith
  have hquiet : 0 - (0 - o.retargetTime / 2) < o.retargetTime := by linarith
  have hsize : 0 < RingBuffer.size o.bufferSize ⟨data ++ [0], (data ++ [0]).length, false⟩ := by
    rw [RingBuffer.size, if_neg Bool.false_ne_true, List.length_append, Nat.cast_pos]
    exact Nat.succ_pos _
  rw [onSubmit, Option.filter_some, if_pos (decide_eq_true hnonzero)]
  dsimp only
  rw [hseconds, sub_self, Int.cast_zero, append_fraction hfraction, if_pos ⟨hquiet, hsize⟩]

theorem manageClient_quiet (hretarget : 0 < o.retargetTime)
    (hfraction : ∀ k : ℕ, o.bufferSize ≠ k) (n : ℕ) :
    ∃ log, manageClient o (List.replicate (n + 1) ⟨0, 0⟩) =
      some ⟨some ⟨0, 0 - o.retargetTime / 2, ⟨List.replicate n 0, n, false⟩⟩, log, []⟩ := by
  induction n with
  | zero => exact ⟨[.new], rfl⟩
  | succ n ih =>
    obtain ⟨log, hrun⟩ := ih
    have hstep := onSubmit_quiet hretarget hfraction (List.replicate n 0) log
    rw [List.length_append, List.length_replicate, ← List.replicate_succ'] at hstep
    refine ⟨log ++ [.append 0], ?_⟩
    rw [manageClient] at hrun ⊢
    rw [List.replicate_succ', List.foldlM_append, hrun, Option.bind_eq_bind, Option.bind_some,
      List.foldlM_cons, hstep]
    rfl

/-- Every run averages its window where four times the retarget time is a whole number of target
times. -/
theorem slides_iff (hretarget : 0 < o.retargetTime) (htarget : 0 < o.targetTime) :
    (∀ submits, Slides o submits) ↔ ∃ size : ℕ, 4 * o.retargetTime / o.targetTime = size := by
  have hbuffer : 4 * o.retargetTime / o.targetTime = o.bufferSize := by
    rw [Options.bufferSize]
    ring
  have hpos : 0 < o.bufferSize := hbuffer ▸ div_pos (mul_pos four_pos hretarget) htarget
  rw [hbuffer]
  constructor
  · intro h
    by_contra hfraction
    rw [not_exists] at hfraction
    obtain ⟨s, hs, -, hsize⟩ := h (List.replicate (⌊o.bufferSize⌋₊ + 1 + 1) ⟨0, 0⟩)
    obtain ⟨log, hrun⟩ := manageClient_quiet hretarget hfraction (⌊o.bufferSize⌋₊ + 1)
    rw [hrun] at hs
    cases hs
    have hle := hsize _ rfl
    rw [List.length_replicate, Nat.cast_add, Nat.cast_one] at hle
    exact absurd hle (not_le.mpr (Nat.lt_floor_add_one o.bufferSize))
  · rintro ⟨size, hsize⟩ submits
    rw [hsize, Nat.cast_pos] at hpos
    obtain ⟨s, hs, hsliding⟩ := sliding_manageClient hsize hpos submits
    refine ⟨s, hs, ?_, fun m hm => ?_⟩
    · rw [hsize]
      exact hsliding.averaged
    · rw [hsize, Nat.cast_le]
      exact (hsliding.represents m hm).length_data_le

def everySecond (n : ℕ) : List Submit :=
  (List.range n).map fun i : ℕ => ⟨1530000000000 + 1000 * i, 32⟩

/-- A retarget time of 90 seconds and a target time of 15: the window has 24 intervals. -/
theorem slides_whole : Slides ⟨15, 90, 30, 8, 512, false⟩ (everySecond 200) := by
  refine (slides_iff ?_ ?_).mpr ⟨24, ?_⟩ (everySecond 200)
  · norm_num
  · norm_num
  · norm_num

/-- With a target time of 80 seconds the buffer should have four intervals and a half; the fifth
still goes in. -/
theorem fifth_interval : ¬Slides ⟨80, 90, 30, 8, 512, false⟩ (everySecond 6) := by
  rintro ⟨s, hs, -, hsize⟩
  have hdata : (manageClient ⟨80, 90, 30, 8, 512, false⟩ (everySecond 6)).map
      (fun s => s.managed.map fun m => m.timeBuffer.data.length) = some (some 5) := by
    decide +kernel
  rw [hs, Option.map_some, Option.some_inj] at hdata
  obtain ⟨m, hm, hlen⟩ := Option.map_eq_some_iff.mp hdata
  have hle := hsize m hm
  rw [hlen, Options.bufferSize] at hle
  norm_num at hle

end Runs
end Aion.VarDiff
