import AionMiner.Payments.Closing

/-! When the shares of failed rounds go back once, and none are lost. Redis refuses to add a text that is no
integer, and deletes the shares all the same. -/

namespace Aion.Payments
open Text Redis
open Stratum (literal)

section Effects
variable {p q : Command → Prop} {coin : Str} {db : Database Str Str}

/-- Each command of a kind takes effect when its turn comes. -/
def TakeEffect (p : Command → Prop) (db : Database Str Str) : List Command → Prop
  | [] => True
  | c :: cs => (p c → (c.exec db).isSome = true) ∧ TakeEffect p ((c.exec db).getD db) cs

theorem takeEffect_append (cs cs' : List Command) :
    TakeEffect p db (cs ++ cs') ↔ TakeEffect p db cs ∧ TakeEffect p (execAll db cs) cs' := by
  induction cs generalizing db with
  | nil => exact (iff_of_eq (true_and _)).symm
  | cons c cs ih =>
    rw [List.cons_append, TakeEffect, TakeEffect, ih, and_assoc]
    rfl

theorem takeEffect_of_none {cs : List Command} (h : ∀ c ∈ cs, ¬p c) : TakeEffect p db cs := by
  induction cs generalizing db with
  | nil => trivial
  | cons c cs ih =>
    obtain ⟨hc, hcs⟩ := List.forall_mem_cons.mp h
    exact ⟨fun hp => absurd hp hc, ih hcs⟩

theorem takeEffect_congr {cs : List Command} (h : ∀ c ∈ cs, p c ↔ q c) :
    TakeEffect p db cs ↔ TakeEffect q db cs := by
  induction cs generalizing db with
  | nil => exact Iff.rfl
  | cons c cs ih =>
    obtain ⟨hc, hcs⟩ := List.forall_mem_cons.mp h
    rw [TakeEffect, TakeEffect, hc, ih hcs]

theorem takeEffect_forall {ι : Type} {p : ι → Command → Prop} {cs : List Command} :
    (∀ i, TakeEffect (p i) db cs) ↔ TakeEffect (fun c => ∃ i, p i c) db cs := by
  induction cs generalizing db with
  | nil => exact iff_of_true (fun _ => trivial) trivial
  | cons c cs ih =>
    simp only [TakeEffect, forall_and, ih, forall_exists_index]

/-- What is added to the shares of a worker are integers of 64 bits, and so is what comes of each. -/
def Addable (held : Str → ℚ) : List (Sigma fun _ : Str => Str) → Prop
  | [] => True
  | e :: entries =>
    ∃ n, integer e.2 = some n ∧ CanAdd (held e.1) n ∧ Addable (Function.update held e.1 (held e.1 + n)) entries

/-- The current round takes the shares. -/
def TakesBack (coin : Str) (db : Database Str Str) (entries : List (Sigma fun _ : Str => Str)) : Prop :=
  entries = [] ∨ ∃ fields, hashAt db (roundCurrent coin) = some fields ∧
    Addable (fun worker => (fields.lookup worker).getD 0) entries

def bringBack (coin : Str) (e : Sigma fun _ : Str => Str) : Command :=
  .hincrby (roundKey coin (literal "Current")) e.1 e.2

theorem exec_bringBack {e : Sigma fun _ : Str => Str} {fields : AList fun _ : Str => ℚ}
    (h : hashAt db (roundCurrent coin) = some fields) {n : ℤ} (hn : integer e.2 = some n)
    (hadd : CanAdd ((fields.lookup e.1).getD 0) n) :
    (bringBack coin e).exec db = some (increment db (roundCurrent coin) e.1 n fields) := by
  rw [bringBack, Command.exec, hn, Option.bind_some, Redis.exec, roundKey_current, h, Option.bind_some, if_pos hadd]

theorem isSome_bringBack {e : Sigma fun _ : Str => Str} :
    ((bringBack coin e).exec db).isSome = true ↔ ∃ fields, hashAt db (roundCurrent coin) = some fields ∧
      ∃ n, integer e.2 = some n ∧ CanAdd ((fields.lookup e.1).getD 0) n := by
  rw [bringBack, Command.exec, roundKey_current]
  cases integer e.2 with
  | none => simp
  | some n =>
    rw [Option.bind_some, Redis.exec]
    cases hashAt db (roundCurrent coin) with
    | none => simp
    | some fields =>
      rw [Option.bind_some]
      split_ifs with hadd <;> simp [hadd]

theorem addable_iff {fields : AList fun _ : Str => ℚ} (h : hashAt db (roundCurrent coin) = some fields)
    (entries : List (Sigma fun _ : Str => Str)) :
    TakeEffect (fun _ => True) db (entries.map (bringBack coin)) ↔
      Addable (fun worker => (fields.lookup worker).getD 0) entries := by
  induction entries generalizing db fields with
  | nil => exact Iff.rfl
  | cons e entries ih =>
    rw [List.map_cons, TakeEffect, Addable, isSome_bringBack]
    simp only [h, Option.some.injEq, exists_eq_left', forall_const]
    rw [← exists_and_right]
    refine exists_congr fun n => ?_
    rw [and_assoc]
    refine and_congr_right fun hn => and_congr_right fun hadd => ?_
    have hafter : hashAt (increment db (roundCurrent coin) e.1 n fields) (roundCurrent coin) =
        some (fields.insert e.1 ((fields.lookup e.1).getD 0 + n)) := hashAt_insert _
    rw [exec_bringBack h hn hadd, Option.getD_some, ih hafter]
    have hheld : (fun worker => ((fields.insert e.1 ((fields.lookup e.1).getD 0 + n)).lookup worker).getD 0) =
        Function.update (fun worker => (fields.lookup worker).getD 0) e.1 ((fields.lookup e.1).getD 0 + n) := by
      funext worker
      by_cases hworker : worker = e.1
      · rw [hworker, AList.lookup_insert, Function.update_self, Option.getD_some]
      · rw [AList.lookup_insert_ne hworker, Function.update_of_ne hworker]
    rw [hheld]

theorem takesBack_iff (entries : List (Sigma fun _ : Str => Str)) :
    TakeEffect (fun _ => True) db (entries.map (bringBack coin)) ↔ TakesBack coin db entries := by
  cases hfields : hashAt db (roundCurrent coin) with
  | some fields =>
    rw [addable_iff hfields, TakesBack, hfields]
    simp only [Option.some.injEq, exists_eq_left']
    exact (or_iff_right_of_imp fun hnil => hnil ▸ trivial).symm
  | none =>
    rw [TakesBack, hfields]
    simp only [reduceCtorEq, false_and, exists_const, or_false]
    cases entries with
    | nil => exact iff_of_true trivial rfl
    | cons e entries =>
      refine iff_of_false (fun h => ?_) (List.cons_ne_nil e entries)
      obtain ⟨fields, hsome, -⟩ := isSome_bringBack.mp (h.1 trivial)
      rw [hfields] at hsome
      cases hsome

end Effects

section Failed
variable (coin : Str) (shares : Str → Option Shares)

instance (rounds : List Round) : DecidablePred (Fails rounds) := fun _ => inferInstanceAs (Decidable (_ ∧ _))

/-- The shares of the rounds whose heights have failed, one after the other. -/
def failedShares (rounds : List Round) : List (Sigma fun _ : Str => Str) :=
  (rounds.filter fun r => Fails rounds r.height).flatMap fun r => ((shares r.height).getD ∅).entries

/-- The round goes, because its height has failed or it is confirmed. -/
def Goes (rounds : List Round) (r : Round) : Prop := Fails rounds r.height ∨ r.category = .generate

/-- The shares of a height come back, and stay. -/
structure GivenBack (db : Database Str Str) (commands : List Command) (height : Str) : Prop where
  taken : TakeEffect (· ∈ giveBack coin shares height) db commands
  kept : giveBack coin shares height ≠ [] → ∀ keys, .del keys ∈ commands → roundCurrent coin ∉ keys

/-- The shares of some heights, all rounds of which have failed, go back once each, and no others;
what is deleted is given back, or a round of it is confirmed. -/
def ReturnsOnce (db : Database Str Str) (rounds : List Round) (commands : List Command) : Prop :=
  ∃ heights : List Str, heights.Nodup ∧ (∀ height ∈ heights, Fails rounds height) ∧
    (commands.filter Command.returns).Perm (heights.flatMap (giveBack coin shares)) ∧
    ∀ height, (∃ keys, .del keys ∈ commands ∧ roundKey coin height ∈ keys) →
      (height ∈ heights ∧ GivenBack coin shares db commands height) ∨
        ∃ r ∈ rounds, r.height = height ∧ r.category = .generate

variable {coin shares} {db : Database Str Str} {u : Updates} {rounds : Rounds} {commands : List Command}

/-- The final commands are issued if and only if there are shares to return. -/
theorem isSome_roundCommands_iff (u : Updates) (rounds : Rounds) :
    (roundCommands coin shares u rounds.1).isSome = true ↔
      ¬∃ height, Fails rounds.1 height ∧ shares height = none := by
  rw [isSome_roundCommands]
  constructor
  · rintro hall ⟨height, hfails, hnone⟩
    rcases hfails.1 with ⟨r, hr, rfl⟩
    have hsome := hall r hr ((returned_iff rounds hr).mpr hfails)
    rw [hnone] at hsome
    exact Bool.false_ne_true hsome
  · intro hmissing r hr hreturned
    rw [← Option.ne_none_iff_isSome]
    exact fun hnone => hmissing ⟨r.height, (returned_iff rounds hr).mp hreturned, hnone⟩

theorem map_failedShares (rounds : Rounds) :
    (failedShares shares rounds.1).map (bringBack coin) =
      (returnedHeights rounds.1).flatMap (giveBack coin shares) := by
  have hfilter : rounds.1.filter (fun r => Fails rounds.1 r.height) = rounds.1.filter (returned rounds.1) := by
    refine List.filter_congr fun r hr => ?_
    rw [Bool.eq_iff_iff, decide_eq_true_eq]
    exact (returned_iff rounds hr).symm
  rw [failedShares, hfilter, returnedHeights, List.map_flatMap, List.flatMap_map]
  rfl

theorem mem_giveBack {height : Str} {c : Command} (h : c ∈ giveBack coin shares height) :
    c.returns = true := by
  obtain ⟨e, -, rfl⟩ := List.mem_map.mp h
  rfl

/-- Of the final commands the ones that return shares find the current round as it is. -/
theorem takeEffect_final {p : Command → Prop} (hp : ∀ c, p c → c.returns = true)
    (h : roundCommands coin shares u rounds.1 = some commands) :
    ∃ db', hashAt db' (roundCurrent coin) = hashAt db (roundCurrent coin) ∧
      (TakeEffect p db commands ↔ TakeEffect p db' ((failedShares shares rounds.1).map (bringBack coin))) := by
  rw [roundCommands_eq] at h
  split_ifs at h
  cases h
  rw [map_failedShares, ← flatMap_merged]
  generalize (rounds.1.filter comes).map (looked shares rounds.1) = rs
  have hsets : ∀ set ∈ destinations, roundCurrent coin ≠ coin ++ literal set := destination_ne (by decide)
  refine ⟨execAll db (rs.flatMap (Round.moves coin)), hashAt_congr (lookup_moves (key_ne (by decide)) hsets), ?_⟩
  have hother (db : Database Str Str) {cs : List Command} (hcs : ∀ c ∈ cs, c.returns = false) :
      TakeEffect p db cs := by
    refine takeEffect_of_none fun c hc hpc => ?_
    exact Bool.false_ne_true ((hcs c hc).symm.trans (hp c hpc))
  have hone (db : Database Str Str) {P : Prop} [Decidable P] {c : Command} (hc : c.returns = false) :
      TakeEffect p db (if P then [] else [c]) := by
    split_ifs
    · trivial
    · exact hother db (List.forall_mem_singleton.mpr hc)
  have hmoves : TakeEffect p db (rs.flatMap (Round.moves coin)) := by
    refine hother db fun c hc => ?_
    obtain ⟨r, set, rfl⟩ := mem_moves hc
    rfl
  have hfloats (db : Database Str Str) (key : Str) (increments : List (Str × ℚ)) :
      TakeEffect p db (increments.map fun e => Command.hincrbyfloat key e.1 e.2) := by
    refine hother db fun c hc => ?_
    obtain ⟨e, -, rfl⟩ := List.mem_map.mp hc
    rfl
  have hdeletions (db : Database Str Str) (keys : List Str) :
      TakeEffect p db (if keys = [] then [] else [Command.del keys]) := hone db rfl
  have htotals (db : Database Str Str) (totalPaid : ℚ) : TakeEffect p db (if totalPaid = 0 then [] else
      [Command.hincrbyfloat (coin ++ literal ":stats") (literal "totalPaid") totalPaid]) := hone db rfl
  rw [finalRedisCommands]
  simp only [takeEffect_append, hmoves, hfloats, hdeletions, htotals, true_and, and_true]

/-- All shares of failed heights come back if and only if the current round takes them. -/
theorem taken_iff (h : roundCommands coin shares u rounds.1 = some commands) :
    (∀ height ∈ returnedHeights rounds.1, TakeEffect (· ∈ giveBack coin shares height) db commands) ↔
      TakesBack coin db (failedShares shares rounds.1) := by
  have hreturns : ∀ c, (∃ height : { height // height ∈ returnedHeights rounds.1 },
      c ∈ giveBack coin shares height.1) → c.returns = true := fun c ⟨_, hc⟩ => mem_giveBack hc
  obtain ⟨db', hdb', hfinal⟩ := @takeEffect_final coin shares db u rounds commands _ hreturns h
  have hall : ∀ c ∈ (failedShares shares rounds.1).map (bringBack coin),
      (∃ height : { height // height ∈ returnedHeights rounds.1 }, c ∈ giveBack coin shares height.1) ↔ True := by
    intro c hc
    rw [map_failedShares] at hc
    obtain ⟨height, hheight, hc⟩ := List.mem_flatMap.mp hc
    exact iff_of_true ⟨⟨height, hheight⟩, hc⟩ trivial
  have hsame : TakesBack coin db' (failedShares shares rounds.1) ↔
      TakesBack coin db (failedShares shares rounds.1) := by
    rw [TakesBack, TakesBack, hdb']
  rw [← hsame, ← takesBack_iff, ← takeEffect_congr hall, ← hfinal, ← takeEffect_forall]
  exact ⟨fun h height => h height.1 height.2, fun h height hheight => h ⟨height, hheight⟩⟩

theorem giveBack_failed {height : Str} (hheight : height ∈ returnedHeights rounds.1)
    (hne : giveBack coin shares height ≠ []) : failedShares shares rounds.1 ≠ [] := by
  intro hnil
  have hmap := @map_failedShares coin shares rounds
  rw [hnil, List.map_nil] at hmap
  exact hne (List.flatMap_eq_nil_iff.mp hmap.symm height hheight)

theorem exists_giveBack (hne : failedShares shares rounds.1 ≠ []) :
    ∃ height ∈ returnedHeights rounds.1, giveBack coin shares height ≠ [] := by
  obtain ⟨e, he⟩ := List.exists_mem_of_ne_nil _ hne
  have hmem : bringBack coin e ∈ (failedShares shares rounds.1).map (bringBack coin) := List.mem_map_of_mem he
  rw [map_failedShares] at hmem
  obtain ⟨height, hheight, hc⟩ := List.mem_flatMap.mp hmem
  exact ⟨height, hheight, List.ne_nil_of_mem hc⟩

/-- The keys of the rounds that go are deleted, and no others. -/
theorem deleted_iff (h : roundCommands coin shares u rounds.1 = some commands) (height : Str) :
    (∃ keys, .del keys ∈ commands ∧ roundKey coin height ∈ keys) ↔
      ∃ r ∈ rounds.1, r.height = height ∧ Goes rounds.1 r := by
  rw [(roundCommands_some h).2]
  constructor
  · rintro ⟨r, hr, hgoes, hkey⟩
    refine ⟨r, hr, (List.append_cancel_left hkey).symm, ?_⟩
    rwa [Goes, ← returned_iff rounds hr]
  · rintro ⟨r, hr, rfl, hgoes⟩
    refine ⟨r, hr, ?_, rfl⟩
    rwa [returned_iff rounds hr]

/-- The commands return shares once if and only if no two rounds return the same, and the current round
takes all of them and is not itself a round that goes. -/
theorem returnsOnce_iff (h : roundCommands coin shares u rounds.1 = some commands) :
    ReturnsOnce coin shares db rounds.1 commands ↔
      (∀ r ∈ rounds.1, ∀ r' ∈ rounds.1, r.height = r'.height → r.serialized ≠ r'.serialized →
        Fails rounds.1 r.height → ∀ workerShares ∈ shares r.height, workerShares = ∅) ∧
      TakesBack coin db (failedShares shares rounds.1) ∧
      (failedShares shares rounds.1 ≠ [] → ∀ r ∈ rounds.1, r.height = literal "Current" → ¬Goes rounds.1 r) := by
  have hreturned := (roundCommands_some h).1
  have hdeleted := deleted_iff h
  constructor
  · rintro ⟨heights, hnodup, hfailing, hperm, hgone⟩
    have hsub : heights ⊆ returnedHeights rounds.1 := fun height h =>
      (mem_returnedHeights rounds height).mpr (hfailing height h)
    have hback : ∀ height ∈ returnedHeights rounds.1, GivenBack coin shares db commands height := by
      intro height hheight
      have hfails := (mem_returnedHeights rounds height).mp hheight
      rcases hfails.1 with ⟨r, hr, rfl⟩
      rcases hgone _ ((hdeleted _).mpr ⟨r, hr, rfl, Or.inl hfails⟩) with ⟨-, hback⟩ | ⟨r', hr', hheight', hgenerate⟩
      · exact hback
      · have hfailed := hfails.2 r' hr' hheight'
        rw [hgenerate] at hfailed
        cases hfailed
    refine ⟨fun r hr r' hr' hheight hne hfails => ?_,
      (taken_iff h).mp fun height hheight => (hback height hheight).taken,
      fun hne r hr hcurrent hgoes => ?_⟩
    · rw [hreturned] at hperm
      have hnil : giveBack coin shares r.height = [] := by
        apply flatMap_once hnodup hsub hperm
        exact (two_le_count rounds _).mpr ⟨hfails, r, hr, r', hr', rfl, hheight.symm, hne⟩
      exact giveBack_eq_nil.mp hnil
    · obtain ⟨height, hheight, hsome⟩ := @exists_giveBack coin shares rounds hne
      obtain ⟨keys, hkeys, hkey⟩ := (hdeleted _).mpr ⟨r, hr, hcurrent, hgoes⟩
      rw [roundKey_current] at hkey
      exact (hback height hheight).kept hsome keys hkeys hkey
  · rintro ⟨hpairs, htakes, hstays⟩
    refine ⟨(returnedHeights rounds.1).dedup, List.nodup_dedup _, fun height h => ?_, ?_, ?_⟩
    · exact (mem_returnedHeights rounds height).mp (List.mem_dedup.mp h)
    · rw [hreturned]
      apply flatMap_dedup
      intro height hcount
      obtain ⟨hfails, r, hr, r', hr', rfl, hheight, hne⟩ := (two_le_count rounds _).mp hcount
      exact giveBack_eq_nil.mpr (hpairs r hr r' hr' hheight.symm hne hfails)
    · intro height hkeys
      obtain ⟨r, hr, rfl, hfails | hgenerate⟩ := (hdeleted _).mp hkeys
      · have hheight := (mem_returnedHeights rounds r.height).mpr hfails
        refine Or.inl ⟨List.mem_dedup.mpr hheight, (taken_iff h).mpr htakes _ hheight,
          fun hsome keys hkeys hkey => ?_⟩
        rw [← roundKey_current] at hkey
        obtain ⟨r', hr', hcurrent, hgoes⟩ := (hdeleted _).mp ⟨keys, hkeys, hkey⟩
        exact hstays (giveBack_failed hheight hsome) r' hr' hcurrent hgoes
      · exact Or.inr ⟨r, hr, rfl, hgenerate⟩

variable (coin shares)

/-- Shares go back once, and none are lost, if and only if no two rounds have the same height when all rounds
of the height have failed and there are shares of it, and the current round takes all shares of failed
heights, and is not deleted; or the shares of some failed height are missing, and nothing is done. -/
theorem returns_once_iff (db : Database Str Str) (u : Updates) (rounds : Rounds) :
    (∀ commands, roundCommands coin shares u rounds.1 = some commands →
      ReturnsOnce coin shares db rounds.1 commands) ↔
      (∃ height, Fails rounds.1 height ∧ shares height = none) ∨
        (∀ r ∈ rounds.1, ∀ r' ∈ rounds.1, r.height = r'.height → r.serialized ≠ r'.serialized →
          Fails rounds.1 r.height → ∀ workerShares ∈ shares r.height, workerShares = ∅) ∧
        TakesBack coin db (failedShares shares rounds.1) ∧
        (failedShares shares rounds.1 ≠ [] → ∀ r ∈ rounds.1, r.height = literal "Current" → ¬Goes rounds.1 r) := by
  constructor
  · intro hreturns
    by_cases hmissing : ∃ height, Fails rounds.1 height ∧ shares height = none
    · exact Or.inl hmissing
    · have hsome : (roundCommands coin shares u rounds.1).isSome = true := by
        rw [isSome_roundCommands_iff]
        exact hmissing
      obtain ⟨commands, hcommands⟩ := Option.isSome_iff_exists.mp hsome
      exact Or.inr ((returnsOnce_iff hcommands).mp (hreturns commands hcommands))
  · rintro (hmissing | hpairs) commands hcommands
    · have hsome := Option.isSome_iff_exists.mpr ⟨commands, hcommands⟩
      exact absurd hmissing ((isSome_roundCommands_iff u rounds).mp hsome)
    · exact (returnsOnce_iff hcommands).mpr hpairs

/-- Two orphans of a height. -/
def orphans : Rounds :=
  ⟨[⟨literal "a:b:7", literal "7", .orphan, false, none⟩,
    ⟨literal "c:d:7", literal "7", .orphan, false, none⟩], by decide⟩

def oneShare (_ : Str) : Option Shares := some ((∅ : Shares).insert (literal "a0") (literal "1"))

theorem orphans_return_twice :
    ∃ commands, roundCommands [] oneShare ⟨[], [], 0⟩ orphans.1 = some commands ∧
      ¬ReturnsOnce [] oneShare ∅ orphans.1 commands := by
  have hsome : (roundCommands [] oneShare ⟨[], [], 0⟩ orphans.1).isSome = true :=
    (isSome_roundCommands _ _).mpr fun _ _ _ => rfl
  obtain ⟨commands, hcommands⟩ := Option.isSome_iff_exists.mp hsome
  refine ⟨commands, hcommands, fun hreturns => ?_⟩
  have hpair := ((returnsOnce_iff hcommands).mp hreturns).1 _ List.mem_cons_self _
    (List.mem_cons_of_mem _ List.mem_cons_self) rfl (by decide) (by decide) _ rfl
  exact absurd (congrArg AList.entries hpair) (List.cons_ne_nil _ _)

/-- Half a share is lost. -/
example : ¬TakesBack [] ∅ [⟨literal "a0", literal "0.5"⟩] := by
  have hhalf : integer (literal "0.5") = none := by decide
  rintro (hnil | ⟨fields, -, n, hn, -⟩)
  · cases hnil
  · cases hhalf.symm.trans hn

end Failed
end Aion.Payments
