import AionMiner.Payments.Pass

/-! What `handleShare` and the last commands of a pass do to the keys that payments depend on. -/

namespace Aion.Payments
open Text Redis
open Stratum (literal)

section Keys
variable {coin : Str}

theorem key_ne {a b : Str} (h : a ≠ b) : coin ++ a ≠ coin ++ b := fun heq => h (List.append_cancel_left heq)

theorem isRound_roundKey (height : Str) : isRound coin (roundKey coin height) = true := by
  rw [isRound, List.isPrefixOf_iff_prefix]
  exact List.prefix_append _ _

theorem ne_of_isRound {k k' : Str} (hk : isRound coin k = false) (hk' : isRound coin k' = true) : k ≠ k' := by
  rintro rfl
  rw [hk] at hk'
  cases hk'

theorem roundKey_current : roundKey coin (literal "Current") = roundCurrent coin := by
  rw [roundKey, roundCurrent, List.append_assoc]
  rfl

/-- Where blocks go. -/
def destinations : List String := [":blocksKicked", ":blocksOrphaned", ":blocksConfirmed"]

theorem isRound_destination {set : String} (h : set ∈ destinations) :
    isRound coin (coin ++ literal set) = false := by
  apply isRound_other
  revert set
  decide

theorem pending_ne {set : String} (h : set ∈ destinations) : blocksPending coin ≠ coin ++ literal set := by
  apply key_ne
  revert set
  decide

end Keys

section Rounds
variable {coin : Str} {db : Database Str Str}

/-- The shares of a round: there are some, and all count for something. -/
def Good (v : Value Str) : Prop := ∃ fields, v = .hash fields ∧ fields.entries ≠ [] ∧ ∀ e ∈ fields.entries, 0 < e.2

def GoodRounds (coin : Str) (db : Database Str Str) : Prop :=
  ∀ key v, isRound coin key = true → db.lookup key = some v → Good v

theorem good_insert {fields : AList fun _ : Str => ℚ} (h : ∀ e ∈ fields.entries, 0 < e.2) (field : Str) {x : ℚ}
    (hx : 0 < x) : Good (.hash (fields.insert field ((fields.lookup field).getD 0 + x))) := by
  refine ⟨_, rfl, ?_, ?_⟩
  · rw [AList.entries_insert]
    exact List.cons_ne_nil _ _
  · rw [AList.entries_insert]
    refine List.forall_mem_cons.mpr ⟨?_, fun e he => h e ?_⟩
    · cases hlookup : fields.lookup field with
      | none => exact (zero_add x).symm ▸ hx
      | some y =>
        have hy := h ⟨field, y⟩ (AList.mem_lookup_iff.mp hlookup)
        exact add_pos hy hx
    · exact (List.kerase_sublist _ _).subset he

theorem hashAt_of_good (h : GoodRounds coin db) {key : Str} (hkey : isRound coin key = true) :
    ∃ fields, hashAt db key = some fields ∧ ∀ e ∈ fields.entries, 0 < e.2 := by
  unfold hashAt
  cases hlookup : db.lookup key with
  | none => exact ⟨∅, rfl, fun e he => absurd he List.not_mem_nil⟩
  | some v =>
    obtain ⟨fields, rfl, -, hpos⟩ := h key v hkey hlookup
    exact ⟨fields, rfl, hpos⟩

theorem GoodRounds.of_lookup {db' : Database Str Str} (h : GoodRounds coin db)
    (hlookup : ∀ key, isRound coin key = true → db'.lookup key = db.lookup key) : GoodRounds coin db' :=
  fun key v hkey hv => h key v hkey (hlookup key hkey ▸ hv)

theorem GoodRounds.insert (h : GoodRounds coin db) {key : Str} {v : Value Str} (hv : Good v) :
    GoodRounds coin (db.insert key v) := by
  intro k v' hk hlookup
  by_cases heq : k = key
  · rw [heq, AList.lookup_insert] at hlookup
    rwa [← Option.some_inj.mp hlookup]
  · rw [AList.lookup_insert_ne heq] at hlookup
    exact h k v' hk hlookup

theorem GoodRounds.erase (h : GoodRounds coin db) (key : Str) : GoodRounds coin (db.erase key) := by
  intro k v hk hlookup
  by_cases heq : k = key
  · rw [heq, AList.lookup_erase] at hlookup
    cases hlookup
  · rw [AList.lookup_erase_ne heq] at hlookup
    exact h k v hk hlookup

end Rounds

section Shares
variable {text : ℚ → Str} {coin : Str} {db : Database Str Str}

/-- What `handleShare` writes besides rounds. -/
def aside (coin : Str) : List Str := [stats coin, hashrate coin, blocksPending coin]

theorem isRound_aside {k : Str} (h : k ∈ aside coin) : isRound coin k = false := by
  simp only [aside, List.mem_cons, List.not_mem_nil, or_false] at h
  rcases h with rfl | rfl | rfl
  all_goals exact isRound_other coin (by decide)

/-- The first commands of `handleShare`: a valid share counts in the current round. -/
theorem credited_share (h : GoodRounds coin db) {call : Call}
    (hpositive : call.isValidShare = true → 0 < call.shareData.difficulty) :
    GoodRounds coin (multi db (creditCommands coin call ++ hashrateCommands text coin call)) ∧
      (∀ k, k ≠ roundCurrent coin → k ∉ aside coin →
        (multi db (creditCommands coin call ++ hashrateCommands text coin call)).lookup k = db.lookup k) ∧
      setAt (multi db (creditCommands coin call ++ hashrateCommands text coin call)) (blocksPending coin) =
        setAt db (blocksPending coin) ∧
      (call.isValidShare = true →
        ((multi db (creditCommands coin call ++ hashrateCommands text coin call)).lookup
          (roundCurrent coin)).isSome) := by
  have hrate (db : Database Str Str) {k : Str} (hk : k ≠ hashrate coin) :
      (multi db (hashrateCommands text coin call)).lookup k = db.lookup k :=
    lookup_multi_of_touches fun c hc => by
      rw [List.mem_singleton.mp hc]
      exact mt List.mem_singleton.mp hk
  have hcount (db : Database Str Str) (field : Str) {k : Str} (hk : k ≠ stats coin) :
      ((Redis.exec db (.hincrby (stats coin) field 1)).getD db).lookup k = db.lookup k :=
    lookup_of_touches (mt List.mem_singleton.mp hk)
  have hpending : blocksPending coin ≠ hashrate coin ∧ blocksPending coin ≠ stats coin ∧
      blocksPending coin ≠ roundCurrent coin :=
    ⟨key_ne (by decide), key_ne (by decide), key_ne (by decide)⟩
  have hround {k : Str} (hk : isRound coin k = true) : k ≠ hashrate coin ∧ k ≠ stats coin :=
    ⟨(ne_of_isRound (isRound_other coin (by decide)) hk).symm,
      (ne_of_isRound (isRound_other coin (by decide)) hk).symm⟩
  unfold creditCommands
  rw [multi_append]
  cases hvalid : call.isValidShare with
  | false =>
    simp only [Bool.false_eq_true, if_false, multi_cons, multi_nil]
    refine ⟨h.of_lookup fun k hk => ?_, fun k _ hk => ?_, setAt_congr ?_, fun hfalse => hfalse.elim⟩
    · rw [hrate _ (hround hk).1, hcount _ _ (hround hk).2]
    · simp only [aside, List.mem_cons, not_or] at hk
      rw [hrate _ hk.2.1, hcount _ _ hk.1]
    · rw [hrate _ hpending.1, hcount _ _ hpending.2.1]
  | true =>
    obtain ⟨fields, hfields, hpos⟩ := hashAt_of_good h (isRound_current coin)
    have hinsert : GoodRounds coin (db.insert (roundCurrent coin) _) :=
      h.insert (good_insert hpos call.shareData.worker (hpositive hvalid))
    simp only [if_true, multi_cons, multi_nil, exec_hincrbyfloat hfields, Option.getD_some]
    refine ⟨hinsert.of_lookup fun k hk => ?_, fun k hk hk' => ?_,
      setAt_congr ?_, fun _ => ?_⟩
    · rw [hrate _ (hround hk).1, hcount _ _ (hround hk).2]
    · simp only [aside, List.mem_cons, not_or] at hk'
      rw [hrate _ hk'.2.1, hcount _ _ hk'.1, AList.lookup_insert_ne hk]
    · rw [hrate _ hpending.1, hcount _ _ hpending.2.1, AList.lookup_insert_ne hpending.2.2]
    · rw [hrate _ (hround (isRound_current coin)).1, hcount _ _ (hround (isRound_current coin)).2,
        AList.lookup_insert]
      rfl

/-- The member that a block adds to `blocksPending`. -/
def blockMember (call : Call) : Str :=
  joinColon [call.shareData.blockHash.getD [], call.shareData.txHash.getD [], number call.shareData.height]

/-- A share leaves everything alone but the current round, the round it closes and the block it adds. -/
theorem handleShare_frame (h : GoodRounds coin db) {call : Call} {members : List Str}
    (hmembers : setAt db (blocksPending coin) = some members) (hnodup : members.Nodup)
    (hpositive : call.isValidShare = true → 0 < call.shareData.difficulty)
    (hvalid : call.isValidBlock = true → call.isValidShare = true) :
    GoodRounds coin (handleShare text coin db call) ∧
      (∀ k, k ≠ roundCurrent coin → k ∉ aside coin →
        (call.isValidBlock = true → k ≠ roundAt coin call.shareData.height) →
          (handleShare text coin db call).lookup k = db.lookup k) ∧
      (∃ members', setAt (handleShare text coin db call) (blocksPending coin) = some members' ∧ members'.Nodup ∧
        ∀ m, m ∈ members' ↔ (call.isValidBlock = true ∧ m = blockMember call) ∨ m ∈ members) ∧
      (call.isValidBlock = true →
        ((handleShare text coin db call).lookup (roundAt coin call.shareData.height)).isSome) := by
  obtain ⟨hgood, hframe, hpending, hcurrent⟩ := @credited_share text coin db h call hpositive
  rw [← hpending] at hmembers
  have hround {k : Str} (hk : isRound coin k = true) : k ≠ stats coin :=
    (ne_of_isRound (isRound_other coin (by decide)) hk).symm
  have hstats : blocksPending coin ≠ stats coin := key_ne (by decide)
  unfold handleShare
  rw [multi_append]
  generalize multi db (creditCommands coin call ++ hashrateCommands text coin call) =
    db' at hgood hframe hmembers hcurrent ⊢
  have hcount (db : Database Str Str) (field : Str) {k : Str} (hk : k ≠ stats coin) :
      ((Redis.exec db (.hincrby (stats coin) field 1)).getD db).lookup k = db.lookup k :=
    lookup_of_touches (mt List.mem_singleton.mp hk)
  unfold blockCommands
  cases hblock : call.isValidBlock with
  | false =>
    simp only [Bool.false_eq_true, if_false]
    split_ifs
    · simp only [multi_cons, multi_nil]
      refine ⟨hgood.of_lookup fun k hk => hcount _ _ (hround hk), fun k hk hk' _ => ?_,
        ⟨members, (setAt_congr (hcount _ _ hstats)).trans hmembers, hnodup, fun m => by rw [false_and, false_or]⟩,
        fun hfalse => hfalse.elim⟩
      rw [hcount _ _ fun heq => hk' (by rw [heq]; exact List.mem_cons_self)]
      exact hframe k hk hk'
    · exact ⟨hgood, fun k hk hk' _ => hframe k hk hk',
        ⟨members, hmembers, hnodup, fun m => by rw [false_and, false_or]⟩, fun hfalse => hfalse.elim⟩
  | true =>
    obtain ⟨v, hv⟩ := Option.isSome_iff_exists.mp (hcurrent (hvalid hblock))
    have hne := roundAt_ne_current coin call.shareData.height
    have hrename : Redis.exec db' (.rename (roundCurrent coin) (roundAt coin call.shareData.height)) =
        some ((db'.erase (roundCurrent coin)).insert (roundAt coin call.shareData.height) v) := by
      rw [Redis.exec, hv, Option.map_some, if_neg hne.symm]
    have hkept {k : Str} (hk : k ≠ roundCurrent coin) (hk' : k ≠ roundAt coin call.shareData.height) :
        ((db'.erase (roundCurrent coin)).insert (roundAt coin call.shareData.height) v).lookup k = db'.lookup k := by
      rw [AList.lookup_insert_ne hk', AList.lookup_erase_ne hk]
    have hpendingRound : blocksPending coin ≠ roundCurrent coin ∧
        blocksPending coin ≠ roundAt coin call.shareData.height :=
      ⟨ne_of_isRound (isRound_other coin (by decide)) (isRound_current coin),
        ne_of_isRound (isRound_other coin (by decide)) (isRound_at coin _)⟩
    have hmembers' := (setAt_congr (hkept hpendingRound.1 hpendingRound.2)).trans hmembers
    simp only [if_true, multi_cons, multi_nil, hrename, Option.getD_some, exec_sadd hmembers']
    have hother {k : Str} (hk : k ≠ blocksPending coin) (hk' : k ≠ stats coin) (field : Str) (member : List Str) :
        ((Redis.exec (((db'.erase (roundCurrent coin)).insert (roundAt coin call.shareData.height) v).insert
          (blocksPending coin) (.set member)) (.hincrby (stats coin) field 1)).getD _).lookup k =
        ((db'.erase (roundCurrent coin)).insert (roundAt coin call.shareData.height) v).lookup k :=
      (hcount _ field hk').trans (AList.lookup_insert_ne hk)
    have hclosed : GoodRounds coin ((db'.erase (roundCurrent coin)).insert (roundAt coin call.shareData.height) v) :=
      (hgood.erase (roundCurrent coin)).insert (hgood _ v (isRound_current coin) hv)
    refine ⟨hclosed.of_lookup fun k hk => ?_, fun k hk hk' hheight => ?_, ?_, fun _ => ?_⟩
    · exact hother (ne_of_isRound (isRound_other coin (by decide)) hk).symm (hround hk) _ _
    · have haside := hk'
      simp only [aside, List.mem_cons, not_or] at haside
      rw [hother haside.2.2.1 haside.1, hkept hk (hheight trivial)]
      exact hframe k hk hk'
    · obtain ⟨hinserted, hmem⟩ := mem_insert hnodup (blockMember call)
      refine ⟨_, (setAt_congr (hcount _ _ hstats)).trans (setAt_insert _ _), hinserted, fun m => ?_⟩
      rw [true_and]
      exact hmem m
    · have hkey := ne_of_isRound (k := blocksPending coin) (isRound_other coin (by decide))
        (isRound_at coin call.shareData.height)
      rw [hother hkey.symm (hround (isRound_at coin _)), AList.lookup_insert]
      rfl

end Shares

section Commands
variable {coin : Str} {db : Database Str Str}

def Command.touches : Command → List Str
  | .smove source destination _ => [source, destination]
  | .hincrby key _ _ | .hincrbyfloat key _ _ => [key]
  | .del keys => keys

theorem lookup_exec {c : Command} {k : Str} (hk : k ∉ c.touches) : ((c.exec db).getD db).lookup k = db.lookup k := by
  cases c with
  | smove source destination member =>
    obtain ⟨hsource, hdestination⟩ := not_or.mp (mt List.mem_cons.mpr hk)
    exact lookup_smove hsource (mt List.mem_singleton.mpr hdestination) member
  | hincrby key field increment =>
    rw [Command.exec]
    cases integer increment with
    | none => rfl
    | some n => exact lookup_of_touches (c := .hincrby key field n) hk
  | hincrbyfloat key field increment => exact lookup_of_touches (c := .hincrbyfloat key field increment) hk
  | del keys => exact lookup_del hk

theorem lookup_execAll {cs : List Command} {k : Str} (h : ∀ c ∈ cs, k ∉ c.touches) :
    (execAll db cs).lookup k = db.lookup k := by
  induction cs generalizing db with
  | nil => rfl
  | cons c cs ih =>
    obtain ⟨hc, hcs⟩ := List.forall_mem_cons.mp h
    exact (ih hcs).trans (lookup_exec hc)

theorem execAll_append (cs cs' : List Command) : execAll db (cs ++ cs') = execAll (execAll db cs) cs' :=
  List.foldl_append

theorem hashAt_hincrbyfloat {key : Str} {fields : AList fun _ : Str => ℚ} (h : hashAt db key = some fields)
    (increments : List (Str × ℚ)) :
    hashAt (execAll db (increments.map fun e => .hincrbyfloat key e.1 e.2)) key =
      some (addAll fields increments) := by
  induction increments generalizing db fields with
  | nil => exact h
  | cons e increments ih =>
    have hexec : hashAt ((Redis.exec db (.hincrbyfloat key e.1 e.2)).getD db) key =
        some (fields.insert e.1 ((fields.lookup e.1).getD 0 + e.2)) := by
      rw [exec_hincrbyfloat h, Option.getD_some]
      exact hashAt_insert _
    exact ih hexec

/-- Blocks leave `blocksPending` one after the other. -/
theorem setAt_moves {cs : List Command} (hcs : ∀ c ∈ cs, ∃ r, ∃ set ∈ destinations, c = moveTo coin r set)
    {members : List Str} (hmembers : setAt db (blocksPending coin) = some members) (hnodup : members.Nodup)
    (hsets : ∀ set ∈ destinations, (setAt db (coin ++ literal set)).isSome) :
    (∃ members', setAt (execAll db cs) (blocksPending coin) = some members' ∧ members'.Nodup ∧
      ∀ m, m ∈ members' ↔ m ∈ members ∧ ∀ r set, moveTo coin r set ∈ cs → m ≠ r.serialized) ∧
      ∀ set ∈ destinations, (setAt (execAll db cs) (coin ++ literal set)).isSome := by
  induction cs generalizing db members with
  | nil => exact ⟨⟨members, hmembers, hnodup, fun m => (and_iff_left fun _ _ h => absurd h List.not_mem_nil).symm⟩,
      hsets⟩
  | cons c cs ih =>
    obtain ⟨⟨r, set, hset, rfl⟩, hrest⟩ := List.forall_mem_cons.mp hcs
    obtain ⟨there, hthere⟩ := Option.isSome_iff_exists.mp (hsets set hset)
    obtain ⟨hleft, hjoined⟩ := setAt_smove (pending_ne hset) hmembers hthere r.serialized
    have hsets' : ∀ set' ∈ destinations,
        (setAt (((moveTo coin r set).exec db).getD db) (coin ++ literal set')).isSome := by
      intro set' hset'
      by_cases heq : coin ++ literal set' = coin ++ literal set
      · rw [heq]
        exact hjoined
      · exact (congrArg Option.isSome (setAt_congr (lookup_smove (pending_ne hset').symm heq r.serialized))).trans
          (hsets set' hset')
    obtain ⟨herased, hmem'⟩ := mem_erase hnodup r.serialized
    obtain ⟨⟨members', hmembers', hnodup', hmem⟩, hsets''⟩ := ih hrest hleft herased hsets'
    refine ⟨⟨members', hmembers', hnodup', fun m => (hmem m).trans ?_⟩, hsets''⟩
    rw [hmem']
    constructor
    · rintro ⟨⟨hne, hm⟩, hlater⟩
      refine ⟨hm, fun r' set' hmove => ?_⟩
      rcases List.mem_cons.mp hmove with heq | hmove
      · rw [(Command.smove.inj heq).2.2]
        exact hne
      · exact hlater r' set' hmove
    · rintro ⟨hm, hall⟩
      exact ⟨⟨hall r set List.mem_cons_self, hm⟩, fun r' set' hmove => hall r' set' (List.mem_cons_of_mem _ hmove)⟩

/-- A command of the end of a pass. -/
inductive Closing (coin : Str) : Command → Prop
  | move (r : Round) {set : String} (hset : set ∈ destinations) : Closing coin (moveTo coin r set)
  | merge (field : Str) {increment : Str} (hpos : ∀ n ∈ integer increment, 0 < n) :
      Closing coin (.hincrby (roundCurrent coin) field increment)
  | other {key : Str} (hkey : isRound coin key = false) (field : Str) (x : ℚ) :
      Closing coin (.hincrbyfloat key field x)
  | del (keys : List Str) : Closing coin (.del keys)

theorem GoodRounds.exec (h : GoodRounds coin db) {c : Command} (hc : Closing coin c) :
    GoodRounds coin ((c.exec db).getD db) := by
  cases hc with
  | move r hset =>
    refine h.of_lookup fun key hkey => lookup_exec ?_
    have hpending :=
      (ne_of_isRound (isRound_other coin (by decide) : isRound coin (blocksPending coin) = false) hkey).symm
    have hdestination := (ne_of_isRound (isRound_destination hset) hkey).symm
    exact fun hmem => (List.mem_cons.mp hmem).elim hpending fun hmem => hdestination (List.mem_singleton.mp hmem)
  | @merge field increment hpos =>
    rw [Command.exec]
    cases hn : integer increment with
    | none => exact h
    | some n =>
      obtain ⟨fields, hfields, hgood⟩ := hashAt_of_good h (isRound_current coin)
      rw [Option.bind_some, Redis.exec, hfields, Option.bind_some]
      split_ifs
      · exact h.insert (good_insert hgood field (by exact_mod_cast hpos n hn))
      · exact h
  | other hkey field x =>
    refine h.of_lookup fun key hround => lookup_exec ?_
    exact mt List.mem_singleton.mp (ne_of_isRound hkey hround).symm
  | del keys =>
    rw [Command.exec, Option.getD_some]
    induction keys generalizing db with
    | nil => exact h
    | cons key keys ih => exact ih (h.erase key)

theorem GoodRounds.execAll (h : GoodRounds coin db) {cs : List Command} (hcs : ∀ c ∈ cs, Closing coin c) :
    GoodRounds coin (execAll db cs) := by
  induction cs generalizing db with
  | nil => exact h
  | cons c cs ih =>
    obtain ⟨hc, hcs⟩ := List.forall_mem_cons.mp hcs
    exact ih (h.exec hc) hcs

end Commands
end Aion.Payments
