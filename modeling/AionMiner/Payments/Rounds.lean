import AionMiner.Payments.Send
import Mathlib.Data.List.Dedup
import Mathlib.Data.List.Perm.Subperm

/-! The pending rounds in `processPayments`: the categories the daemon gives them, and which shares
go back. -/

namespace Aion.Payments
open Text
open Stratum (literal)

section Code

inductive Category where
  | kicked | orphan | generate
  /-- Immature, or nothing that is known. -/
  | other
  deriving DecidableEq

def Category.failed (c : Category) : Bool := c = .kicked || c = .orphan

abbrev Shares := AList fun _ : Str => Str

/-- `height` is the last part of `serialized`. -/
structure Round where
  serialized : Str
  height : Str
  category : Category
  canDeleteShares : Bool
  workerShares : Option Shares

abbrev Rounds := { rounds : List Round // (rounds.map Round.serialized).Nodup }

structure Detail where
  address : Str
  category : Category

/-- The code of an error, and the details of a result if there is one and it has some. -/
structure TxReply where
  error : Option ℤ
  result : Option (Option (List Detail))

/-- What the answer of `gettransaction` makes of a round; an exception is `none`. -/
def categorize (poolAddress : Str) (tx : TxReply) : Option Category :=
  if tx.error = some (-5) then some .kicked
  else
    match tx.result with
    | none => none
    | some none | some (some []) => some .kicked
    | some (some (detail :: details)) =>
      if tx.error.isSome then some .other
      else
        match (detail :: details).find? fun d => d.address = poolAddress with
        | some generationTx => some generationTx.category
        | none => if details = [] then some detail.category else some .other

/-- The answers but for the last one, in the order of the rounds. -/
def assign (poolAddress : Str) : List Round → List TxReply → Option (List Round)
  | rounds, [] => some rounds
  | [], _ :: _ => none
  | r :: rounds, tx :: txs =>
    (categorize poolAddress tx).bind fun category =>
      (assign poolAddress rounds txs).map ({ r with category } :: ·)

def canDeleteShares (rounds : List Round) (r : Round) : Bool :=
  rounds.all fun compareR =>
    !(compareR.height = r.height && compareR.category ≠ .kicked && compareR.category ≠ .orphan &&
      compareR.serialized ≠ r.serialized)

def settle (rounds : List Round) : List Round :=
  (rounds.filter fun r =>
      r.category = .orphan || r.category = .kicked || r.category = .generate).map fun r =>
    if r.category = .generate then r else { r with canDeleteShares := canDeleteShares rounds r }

def lookUp (shares : Str → Option Shares) (r : Round) : Round :=
  if r.category = .generate then r else { r with workerShares := shares r.height }

inductive Command where
  | smove (source destination member : Str)
  | hincrby (key field increment : Str)
  | hincrbyfloat (key field : Str) (increment : ℚ)
  | del (keys : List Str)

structure Moves where
  movePending : List Command
  orphanMerge : List Command
  roundsToDelete : List Str

variable (coin : Str)

def roundKey (height : Str) : Str := coin ++ literal ":shares:round" ++ height

def moveTo (r : Round) (set : String) : Command :=
  .smove (coin ++ literal ":blocksPending") (coin ++ literal set) r.serialized

def merge (workerShares : Shares) : List Command :=
  workerShares.entries.map fun e => .hincrby (roundKey coin (literal "Current")) e.1 e.2

/-- A round in the last `forEach`; without shares there is an exception. -/
def Moves.round (m : Moves) (r : Round) : Option Moves :=
  match r.category with
  | .kicked | .orphan =>
    let movePending :=
      m.movePending ++ (if r.category = .kicked then [moveTo coin r ":blocksKicked"] else []) ++
        [moveTo coin r ":blocksOrphaned"]
    if r.canDeleteShares then
      r.workerShares.map fun workerShares =>
        ⟨movePending, m.orphanMerge ++ merge coin workerShares,
          m.roundsToDelete ++ [roundKey coin r.height]⟩
    else some { m with movePending }
  | .generate =>
    some { m with
      movePending := m.movePending ++ [moveTo coin r ":blocksConfirmed"]
      roundsToDelete := m.roundsToDelete ++ [roundKey coin r.height] }
  | .other => some m

def finalRedisCommands (u : Updates) (m : Moves) : List Command :=
  m.movePending ++ m.orphanMerge ++
    u.balances.map (fun e => .hincrbyfloat (coin ++ literal ":balances") e.1 e.2) ++
    u.payouts.map (fun e => .hincrbyfloat (coin ++ literal ":payouts") e.1 e.2) ++
    (if m.roundsToDelete = [] then [] else [.del m.roundsToDelete]) ++
    if u.totalPaid = 0 then []
    else [.hincrbyfloat (coin ++ literal ":stats") (literal "totalPaid") u.totalPaid]

/-- From the categories on. -/
def roundCommands (shares : Str → Option Shares) (u : Updates) (rounds : List Round) :
    Option (List Command) :=
  (((settle rounds).map (lookUp shares)).foldlM (Moves.round coin) ⟨[], [], []⟩).map
    (finalRedisCommands coin u)

end Code

section Copies
variable {α β : Type}

theorem two_le_length {l : List α} (hnodup : l.Nodup) : 2 ≤ l.length ↔ ∃ a ∈ l, ∃ b ∈ l, a ≠ b := by
  rcases l with _ | ⟨a, _ | ⟨b, l⟩⟩
  · exact iff_of_false (by simp) fun ⟨a, ha, _⟩ => List.not_mem_nil ha
  · refine iff_of_false (by simp) ?_
    rintro ⟨b, hb, c, hc, hne⟩
    exact hne ((List.mem_singleton.mp hb).trans (List.mem_singleton.mp hc).symm)
  · refine iff_of_true (by simp) ⟨a, List.mem_cons_self, b,
      List.mem_cons_of_mem _ List.mem_cons_self, ?_⟩
    rintro rfl
    exact (List.nodup_cons.mp hnodup).1 List.mem_cons_self

theorem flatMap_filter {p q : α → Bool} (h : ∀ a, q a = true → p a = true) (f : α → List β)
    (l : List α) :
    ((l.filter p).flatMap fun a => if q a then f a else []) = (l.filter q).flatMap f := by
  induction l with
  | nil => rfl
  | cons a l ih =>
    by_cases hq : q a = true
    · rw [List.filter_cons_of_pos (h a hq), List.filter_cons_of_pos hq, List.flatMap_cons,
        List.flatMap_cons, if_pos hq, ih]
    · rw [List.filter_cons_of_neg hq, ← ih]
      by_cases hp : p a = true
      · rw [List.filter_cons_of_pos hp, List.flatMap_cons, if_neg hq, List.nil_append]
      · rw [List.filter_cons_of_neg hp]

variable [BEq α] [LawfulBEq α]

theorem append_diff_perm {l hs : List α} (hnodup : hs.Nodup) (hsub : hs ⊆ l) :
    (hs ++ l.diff hs).Perm l := by
  apply List.subperm_append_diff_self_of_count_le
  intro a ha
  rw [List.count_eq_one_of_mem hnodup ha]
  exact List.count_pos_iff.mpr (hsub ha)

/-- What is left of a list when some of its members are taken out once each. -/
theorem mem_diff_iff {l hs : List α} (hnodup : hs.Nodup) (hsub : hs ⊆ l) {a : α} :
    a ∈ l.diff hs ↔ hs.count a < l.count a := by
  have hcount := (append_diff_perm hnodup hsub).count_eq a
  rw [List.count_append] at hcount
  rw [← List.count_pos_iff]
  omega

/-- Where the blocks of a list are those of some members once each, there is nothing in the block of
a member that comes twice. -/
theorem flatMap_once {f : α → List β} {l hs : List α} (hnodup : hs.Nodup) (hsub : hs ⊆ l)
    (hperm : (l.flatMap f).Perm (hs.flatMap f)) {a : α} (ha : 2 ≤ l.count a) : f a = [] := by
  have hlength := ((append_diff_perm hnodup hsub).flatMap_right f).length_eq
  rw [hperm.length_eq, List.flatMap_append, List.length_append, Nat.add_eq_left,
    List.length_eq_zero_iff, List.flatMap_eq_nil_iff] at hlength
  apply hlength
  rw [mem_diff_iff hnodup hsub]
  exact (List.nodup_iff_count.mp hnodup a).trans_lt ha

theorem flatMap_dedup [DecidableEq α] {f : α → List β} {l : List α}
    (hempty : ∀ a, 2 ≤ l.count a → f a = []) : (l.flatMap f).Perm (l.dedup.flatMap f) := by
  have hsub : l.dedup ⊆ l := fun a ha => List.mem_dedup.mp ha
  have hrest : (l.diff l.dedup).flatMap f = [] := by
    rw [List.flatMap_eq_nil_iff]
    intro a ha
    have hcount := (mem_diff_iff (List.nodup_dedup l) hsub).mp ha
    have hmem : a ∈ l.dedup := List.mem_dedup.mpr (List.count_pos_iff.mp (Nat.zero_lt_of_lt hcount))
    rw [List.count_eq_one_of_mem (List.nodup_dedup l) hmem] at hcount
    exact hempty a hcount
  have hperm := ((append_diff_perm (List.nodup_dedup l) hsub).flatMap_right f).symm
  rw [List.flatMap_append, hrest, List.append_nil] at hperm
  exact hperm

end Copies

section Run
variable {coin : Str} {shares : Str → Option Shares}

/-- What a round adds to the commands that return shares. -/
def Round.merged (coin : Str) (r : Round) : List Command :=
  if r.category.failed && r.canDeleteShares then merge coin (r.workerShares.getD ∅) else []

def Round.deleted (coin : Str) (r : Round) : List Str :=
  if r.category.failed && r.canDeleteShares || r.category = .generate then [roundKey coin r.height]
  else []

def Round.moves (coin : Str) (r : Round) : List Command :=
  match r.category with
  | .kicked => [moveTo coin r ":blocksKicked", moveTo coin r ":blocksOrphaned"]
  | .orphan => [moveTo coin r ":blocksOrphaned"]
  | .generate => [moveTo coin r ":blocksConfirmed"]
  | .other => []

/-- The daemon gives categories and nothing else, so that the rounds stay apart. -/
theorem assign_some {poolAddress : Str} {rounds assigned : List Round} {txs : List TxReply}
    (h : assign poolAddress rounds txs = some assigned) :
    assigned.map (fun r => (r.serialized, r.height)) =
      rounds.map fun r => (r.serialized, r.height) := by
  induction txs generalizing rounds assigned with
  | nil =>
    rw [assign] at h
    cases h
    rfl
  | cons tx txs ih =>
    rcases rounds with _ | ⟨r, rounds⟩
    · cases h
    · obtain ⟨category, -, h⟩ := Option.bind_eq_some_iff.mp h
      obtain ⟨rest, hrest, rfl⟩ := Option.map_eq_some_iff.mp h
      rw [List.map_cons, List.map_cons, ih hrest]

def Round.throws (r : Round) : Bool :=
  r.category.failed && r.canDeleteShares && r.workerShares.isNone

theorem round_eq (m : Moves) (r : Round) :
    m.round coin r =
      if r.throws then none
      else some
        ⟨m.movePending ++ r.moves coin, m.orphanMerge ++ r.merged coin,
          m.roundsToDelete ++ r.deleted coin⟩ := by
  obtain ⟨serialized, height, category, canDeleteShares, workerShares⟩ := r
  cases category
  all_goals cases canDeleteShares
  all_goals cases workerShares
  all_goals simp [Moves.round, Round.throws, Round.moves, Round.merged, Round.deleted,
    Category.failed]

theorem foldlM_round (rounds : List Round) (m : Moves) :
    rounds.foldlM (Moves.round coin) m =
      if rounds.any Round.throws then none
      else some
        ⟨m.movePending ++ rounds.flatMap (Round.moves coin),
          m.orphanMerge ++ rounds.flatMap (Round.merged coin),
          m.roundsToDelete ++ rounds.flatMap (Round.deleted coin)⟩ := by
  induction rounds generalizing m with
  | nil => simp
  | cons r rounds ih =>
    rw [List.foldlM_cons, round_eq, List.any_cons]
    cases r.throws with
    | true => rfl
    | false =>
      rw [if_neg Bool.false_ne_true, Bool.false_or]
      refine (ih _).trans ?_
      simp only [List.flatMap_cons, List.append_assoc]

def Command.returns : Command → Bool
  | .hincrby _ _ _ => true
  | _ => false

theorem mem_moves {rounds : List Round} {c : Command} (h : c ∈ rounds.flatMap (Round.moves coin)) :
    ∃ r set, c = moveTo coin r set := by
  obtain ⟨r, -, hc⟩ := List.mem_flatMap.mp h
  rw [Round.moves] at hc
  cases hcategory : r.category with
  | kicked =>
    rw [hcategory] at hc
    rcases List.mem_cons.mp hc with rfl | hc
    · exact ⟨r, _, rfl⟩
    · exact ⟨r, _, List.mem_singleton.mp hc⟩
  | orphan | generate =>
    rw [hcategory] at hc
    exact ⟨r, _, List.mem_singleton.mp hc⟩
  | other =>
    rw [hcategory] at hc
    exact absurd hc List.not_mem_nil

theorem mem_merged {rounds : List Round} {c : Command}
    (h : c ∈ rounds.flatMap (Round.merged coin)) :
    ∃ field increment, c = .hincrby (roundKey coin (literal "Current")) field increment := by
  obtain ⟨r, -, hc⟩ := List.mem_flatMap.mp h
  rw [Round.merged] at hc
  split_ifs at hc
  · obtain ⟨e, -, rfl⟩ := List.mem_map.mp hc
    exact ⟨e.1, e.2, rfl⟩
  · exact absurd hc List.not_mem_nil

theorem filter_returns (u : Updates) (rounds : List Round) (keys : List Str) :
    (finalRedisCommands coin u
        ⟨rounds.flatMap (Round.moves coin), rounds.flatMap (Round.merged coin), keys⟩).filter
      Command.returns = rounds.flatMap (Round.merged coin) := by
  have hmoves : (rounds.flatMap (Round.moves coin)).filter Command.returns = [] := by
    rw [List.filter_eq_nil_iff]
    intro c hc
    obtain ⟨r, set, rfl⟩ := mem_moves hc
    exact Bool.false_ne_true
  have hmerged : (rounds.flatMap (Round.merged coin)).filter Command.returns =
      rounds.flatMap (Round.merged coin) := by
    rw [List.filter_eq_self]
    intro c hc
    obtain ⟨field, increment, rfl⟩ := mem_merged hc
    rfl
  have hfloats (key : Str) (increments : List (Str × ℚ)) :
      (increments.map fun e => Command.hincrbyfloat key e.1 e.2).filter Command.returns = [] := by
    rw [List.filter_eq_nil_iff]
    intro c hc
    obtain ⟨e, -, rfl⟩ := List.mem_map.mp hc
    exact Bool.false_ne_true
  rw [finalRedisCommands]
  simp only [List.filter_append, hmoves, hmerged, hfloats]
  split_ifs
  all_goals simp [Command.returns]

theorem mem_deleted (u : Updates) (rounds : List Round) (keys : List Str) (key : Str) :
    (∃ deleted, .del deleted ∈ finalRedisCommands coin u
        ⟨rounds.flatMap (Round.moves coin), rounds.flatMap (Round.merged coin), keys⟩ ∧
      key ∈ deleted) ↔ key ∈ keys := by
  have hdel (deleted : List Str) : .del deleted ∈ finalRedisCommands coin u
      ⟨rounds.flatMap (Round.moves coin), rounds.flatMap (Round.merged coin), keys⟩ ↔
        keys ≠ [] ∧ deleted = keys := by
    have hmoves : .del deleted ∉ rounds.flatMap (Round.moves coin) := fun h => by
      obtain ⟨r, set, hc⟩ := mem_moves h
      cases hc
    have hmerged : .del deleted ∉ rounds.flatMap (Round.merged coin) := fun h => by
      obtain ⟨field, increment, hc⟩ := mem_merged h
      cases hc
    rw [finalRedisCommands]
    simp only [List.mem_append, hmoves, hmerged, false_or]
    split_ifs with hkeys hpaid hpaid
    all_goals simp [hkeys]
  constructor
  · rintro ⟨deleted, hmem, hkey⟩
    rw [((hdel deleted).mp hmem).2] at hkey
    exact hkey
  · intro hkey
    exact ⟨keys, (hdel keys).mpr ⟨List.ne_nil_of_mem hkey, rfl⟩, hkey⟩

end Run

section Heights
variable {coin : Str} {shares : Str → Option Shares}

/-- There are rounds of the height, and all have failed. -/
def Fails (rounds : List Round) (height : Str) : Prop :=
  (∃ r ∈ rounds, r.height = height) ∧ ∀ r ∈ rounds, r.height = height → r.category.failed = true

def returned (rounds : List Round) (r : Round) : Bool :=
  r.category.failed && canDeleteShares rounds r

theorem returned_iff (rounds : Rounds) {r : Round} (hr : r ∈ rounds.1) :
    returned rounds.1 r = true ↔ Fails rounds.1 r.height := by
  rw [returned, Bool.and_eq_true, canDeleteShares, List.all_eq_true]
  constructor
  · rintro ⟨hfailed, hothers⟩
    refine ⟨⟨r, hr, rfl⟩, fun c hc hheight => ?_⟩
    by_cases hself : c.serialized = r.serialized
    · rw [List.inj_on_of_nodup_map rounds.2 hc hr hself]
      exact hfailed
    · have hother := hothers c hc
      cases hcategory : c.category
      all_goals simp_all [Category.failed]
  · rintro ⟨-, hfailed⟩
    refine ⟨hfailed r hr rfl, fun c hc => ?_⟩
    by_cases hheight : c.height = r.height
    · have hother := hfailed c hc hheight
      cases hcategory : c.category
      all_goals simp_all [Category.failed]
    · simp [hheight]

def looked (shares : Str → Option Shares) (rounds : List Round) (r : Round) : Round :=
  lookUp shares
    (if r.category = .generate then r else { r with canDeleteShares := canDeleteShares rounds r })

def comes (r : Round) : Bool :=
  r.category = .orphan || r.category = .kicked || r.category = .generate

theorem settle_eq (rounds : List Round) :
    (settle rounds).map (lookUp shares) = (rounds.filter comes).map (looked shares rounds) := by
  rw [settle, List.map_map]
  rfl

theorem comes_of_returned {rounds : List Round} {r : Round} (h : returned rounds r = true) :
    comes r = true := by
  have hfailed := (Bool.and_eq_true_iff.mp h).1
  cases hcategory : r.category
  all_goals simp_all [Category.failed, comes]

theorem merged_looked (rounds : List Round) (r : Round) :
    (looked shares rounds r).merged coin =
      if returned rounds r then merge coin ((shares r.height).getD ∅) else [] := by
  obtain ⟨serialized, height, category, _, _⟩ := r
  cases category
  all_goals rfl

theorem throws_looked (rounds : List Round) (r : Round) :
    (looked shares rounds r).throws = (returned rounds r && (shares r.height).isNone) := by
  obtain ⟨serialized, height, category, _, _⟩ := r
  cases category
  all_goals rfl

theorem deleted_looked (rounds : List Round) (r : Round) :
    (looked shares rounds r).deleted coin =
      if returned rounds r || r.category = .generate then [roundKey coin r.height] else [] := by
  obtain ⟨serialized, height, category, _, _⟩ := r
  cases category
  all_goals rfl

/-- The heights whose shares are given back, once for each round that does. -/
def returnedHeights (rounds : List Round) : List Str :=
  (rounds.filter (returned rounds)).map Round.height

def giveBack (coin : Str) (shares : Str → Option Shares) (height : Str) : List Command :=
  merge coin ((shares height).getD ∅)

theorem roundCommands_eq (u : Updates) (rounds : List Round) :
    roundCommands coin shares u rounds =
      if ((rounds.filter comes).map (looked shares rounds)).any Round.throws then none
      else some (finalRedisCommands coin u
        ⟨((rounds.filter comes).map (looked shares rounds)).flatMap (Round.moves coin),
          ((rounds.filter comes).map (looked shares rounds)).flatMap (Round.merged coin),
          ((rounds.filter comes).map (looked shares rounds)).flatMap (Round.deleted coin)⟩) := by
  rw [roundCommands, settle_eq, foldlM_round]
  split_ifs
  · rfl
  · rfl

theorem isSome_roundCommands (u : Updates) (rounds : List Round) :
    (roundCommands coin shares u rounds).isSome = true ↔
      ∀ r ∈ rounds, returned rounds r = true → (shares r.height).isSome = true := by
  have hany : ((rounds.filter comes).map (looked shares rounds)).any Round.throws = true ↔
      ∃ r ∈ rounds, returned rounds r = true ∧ (shares r.height).isNone = true := by
    simp only [List.any_map, List.any_eq_true, List.mem_filter, Function.comp_apply, throws_looked,
      Bool.and_eq_true]
    constructor
    · rintro ⟨r, ⟨hr, -⟩, hthrows⟩
      exact ⟨r, hr, hthrows⟩
    · rintro ⟨r, hr, hthrows⟩
      exact ⟨r, ⟨hr, comes_of_returned hthrows.1⟩, hthrows⟩
  rw [roundCommands_eq]
  split_ifs with hthrows
  · obtain ⟨r, hr, hreturned, hnone⟩ := hany.mp hthrows
    refine iff_of_false Bool.false_ne_true fun hall => ?_
    rw [Option.isNone_iff_eq_none] at hnone
    have hsome := hall r hr hreturned
    rw [hnone] at hsome
    exact Bool.false_ne_true hsome
  · refine iff_of_true rfl fun r hr hreturned => ?_
    rw [← Option.not_isNone, Bool.not_eq_true']
    exact Bool.eq_false_iff.mpr fun hnone => hthrows (hany.mpr ⟨r, hr, hreturned, hnone⟩)

theorem flatMap_merged (rounds : List Round) :
    ((rounds.filter comes).map (looked shares rounds)).flatMap (Round.merged coin) =
      (returnedHeights rounds).flatMap (giveBack coin shares) := by
  rw [List.flatMap_map, returnedHeights, List.flatMap_map]
  simp only [merged_looked]
  exact flatMap_filter (fun r => comes_of_returned) (fun r => merge coin ((shares r.height).getD ∅)) rounds

theorem roundCommands_some {u : Updates} {rounds : List Round} {commands : List Command}
    (h : roundCommands coin shares u rounds = some commands) :
    commands.filter Command.returns = (returnedHeights rounds).flatMap (giveBack coin shares) ∧
      ∀ key, (∃ keys, .del keys ∈ commands ∧ key ∈ keys) ↔
        ∃ r ∈ rounds,
          (returned rounds r = true ∨ r.category = .generate) ∧ key = roundKey coin r.height := by
  rw [roundCommands_eq] at h
  split_ifs at h
  · cases h
    refine ⟨?_, fun key => ?_⟩
    · rw [filter_returns, flatMap_merged]
    · rw [mem_deleted, List.flatMap_map, List.mem_flatMap]
      simp only [deleted_looked, List.mem_filter]
      constructor
      · rintro ⟨r, ⟨hr, -⟩, hkey⟩
        split_ifs at hkey with hdeletes
        · rw [Bool.or_eq_true, decide_eq_true_eq] at hdeletes
          exact ⟨r, hr, hdeletes, List.mem_singleton.mp hkey⟩
        · exact absurd hkey List.not_mem_nil
      · rintro ⟨r, hr, hdeletes, rfl⟩
        refine ⟨r, ⟨hr, ?_⟩, ?_⟩
        · rcases hdeletes with hreturned | hgenerate
          · exact comes_of_returned hreturned
          · rw [comes, hgenerate]
            rfl
        · rw [if_pos (by rw [Bool.or_eq_true, decide_eq_true_eq]; exact hdeletes)]
          exact List.mem_singleton_self _

theorem mem_returnedHeights (rounds : Rounds) (height : Str) :
    height ∈ returnedHeights rounds.1 ↔ Fails rounds.1 height := by
  rw [returnedHeights, List.mem_map]
  constructor
  · rintro ⟨r, hr, rfl⟩
    obtain ⟨hmem, hreturned⟩ := List.mem_filter.mp hr
    exact (returned_iff rounds hmem).mp hreturned
  · intro hfails
    rcases hfails.1 with ⟨r, hr, rfl⟩
    exact ⟨r, List.mem_filter.mpr ⟨hr, (returned_iff rounds hr).mpr hfails⟩, rfl⟩

/-- A height comes twice if two rounds have it. -/
theorem two_le_count (rounds : Rounds) (height : Str) :
    2 ≤ (returnedHeights rounds.1).count height ↔
      Fails rounds.1 height ∧ ∃ r ∈ rounds.1, ∃ r' ∈ rounds.1,
        r.height = height ∧ r'.height = height ∧ r.serialized ≠ r'.serialized := by
  have hmem (r : Round) :
      r ∈ (rounds.1.filter (returned rounds.1)).filter (fun r => r.height == height) ↔
        r ∈ rounds.1 ∧ r.height = height ∧ Fails rounds.1 height := by
    rw [List.mem_filter, List.mem_filter, beq_iff_eq]
    constructor
    · rintro ⟨⟨hr, hreturned⟩, rfl⟩
      exact ⟨hr, rfl, (returned_iff rounds hr).mp hreturned⟩
    · rintro ⟨hr, rfl, hfails⟩
      exact ⟨⟨hr, (returned_iff rounds hr).mpr hfails⟩, rfl⟩
  have hnodup : ((rounds.1.filter (returned rounds.1)).filter fun r => r.height == height).Nodup :=
    ((List.Nodup.of_map _ rounds.2).filter _).filter _
  rw [returnedHeights, List.count, List.countP_map, List.countP_eq_length_filter]
  refine (two_le_length hnodup).trans ?_
  constructor
  · rintro ⟨r, hr, r', hr', hne⟩
    obtain ⟨hr, hheight, hfails⟩ := (hmem r).mp hr
    obtain ⟨hr', hheight', -⟩ := (hmem r').mp hr'
    exact ⟨hfails, r, hr, r', hr', hheight, hheight',
      fun heq => hne (List.inj_on_of_nodup_map rounds.2 hr hr' heq)⟩
  · rintro ⟨hfails, r, hr, r', hr', hheight, hheight', hne⟩
    exact ⟨r, (hmem r).mpr ⟨hr, hheight, hfails⟩, r', (hmem r').mpr ⟨hr', hheight', hfails⟩,
      fun heq => hne (congrArg Round.serialized heq)⟩

theorem giveBack_eq_nil {height : Str} :
    giveBack coin shares height = [] ↔ ∀ workerShares ∈ shares height, workerShares = ∅ := by
  rw [giveBack, merge, List.map_eq_nil_iff]
  cases shares height with
  | none => exact iff_of_true rfl fun _ h => by cases h
  | some workerShares =>
    constructor
    · intro hentries w hw
      cases hw
      exact AList.ext hentries
    · intro hall
      rw [Option.getD_some, hall workerShares rfl]
      rfl

end Heights

end Aion.Payments
