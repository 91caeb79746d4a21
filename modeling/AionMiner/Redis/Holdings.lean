import AionMiner.Redis.Database
import Mathlib.Algebra.Group.Pi.Basic
import Mathlib.Algebra.Order.BigOperators.Group.List

/-! What hashes hold when each field counts for something else, and the commands that move and
delete. -/

namespace Aion.Redis
variable {κ φ : Type}

section Maps
variable {α β : Type}

def mapValues (f : α → β) (s : AList fun _ : φ => α) : AList fun _ : φ => β where
  entries := s.entries.map fun e => ⟨e.1, f e.2⟩
  nodupKeys := by
    rw [List.NodupKeys, List.keys, List.map_map]
    exact s.nodupKeys

theorem lookup_mapValues [DecidableEq φ] (f : α → β) (s : AList fun _ : φ => α) (k : φ) :
    (mapValues f s).lookup k = (s.lookup k).map f := by
  obtain ⟨entries, nodup⟩ := s
  dsimp only [mapValues, AList.lookup]
  clear nodup
  induction entries with
  | nil => rfl
  | cons e entries ih =>
    obtain ⟨key, x⟩ := e
    rw [List.map_cons]
    by_cases hk : k = key
    · subst hk
      rw [List.dlookup_cons_eq, List.dlookup_cons_eq]
      rfl
    · rw [List.dlookup_cons_ne entries ⟨key, x⟩ hk, ← ih]
      exact @List.dlookup_cons_ne φ (fun _ => β) _ _ k ⟨key, f x⟩ hk

theorem sumOver_mapValues {M : Type} [AddCommMonoid M] (f : α → β) (s : AList fun _ : φ => α) (w : φ → β → M) :
    sumOver w (mapValues f s) = sumOver (fun k x => w k (f x)) s := by
  rw [sumOver, mapValues, List.map_map]
  rfl

end Maps

section Weights

/-- Each field weighs `c`. -/
def weigh (c : φ → ℚ) (fields : AList fun _ : φ => ℚ) : ℚ := sumOver (fun k x => c k * x) fields

variable [DecidableEq φ] {c : φ → ℚ} {fields : AList fun _ : φ => ℚ}

theorem weigh_insert (field : φ) (x : ℚ) :
    weigh c (fields.insert field ((fields.lookup field).getD 0 + x)) = weigh c fields + c field * x := by
  have hat : weightAt (fun k x => c k * x) fields field = c field * (fields.lookup field).getD 0 := by
    rw [weightAt]
    cases fields.lookup field with
    | none => exact (mul_zero _).symm
    | some v => rfl
  unfold weigh
  rw [sumOver_insert, ← sumOver_erase _ fields field, hat, mul_add, add_right_comm]

/-- A single key. -/
theorem sumOver_single {α : Type} (f : α → ℚ) (s : AList fun _ : φ => α) (field : φ) :
    sumOver (fun k x => (Pi.single field 1 : φ → ℚ) k * f x) s = ((s.lookup field).map f).getD 0 := by
  obtain ⟨entries, nodup⟩ := s
  unfold sumOver
  dsimp only [AList.lookup]
  induction entries with
  | nil => rfl
  | cons e entries ih =>
    obtain ⟨k, x⟩ := e
    obtain ⟨hk, hnodup⟩ := List.nodupKeys_cons.mp nodup
    rw [List.map_cons, List.sum_cons, ih hnodup]
    by_cases hfield : field = k
    · subst hfield
      rw [List.dlookup_cons_eq, List.dlookup_eq_none.mpr hk, Pi.single_eq_same, one_mul]
      exact add_zero (f x)
    · rw [List.dlookup_cons_ne entries ⟨k, x⟩ hfield, Pi.single_eq_of_ne (Ne.symm hfield), zero_mul, zero_add]

theorem weigh_single (field : φ) : weigh (Pi.single field 1) fields = (fields.lookup field).getD 0 :=
  (sumOver_single id fields field).trans (by rw [Option.map_id, id])

omit [DecidableEq φ] in
theorem weigh_nonneg (hc : ∀ k, 0 ≤ c k) (hfields : ∀ e ∈ fields.entries, 0 ≤ e.2) : 0 ≤ weigh c fields := by
  apply List.sum_nonneg
  intro x hx
  obtain ⟨e, he, rfl⟩ := List.mem_map.mp hx
  exact mul_nonneg (hc e.1) (hfields e he)

end Weights

section Commands
variable [DecidableEq κ] {db : Database κ φ}

def setAt (db : Database κ φ) (key : κ) : Option (List φ) :=
  match db.lookup key with
  | none => some []
  | some (.set members) => some members
  | some _ => none

/-- A set without members does not exist. -/
def putSet (db : Database κ φ) (key : κ) (members : List φ) : Database κ φ :=
  if members = [] then db.erase key else db.insert key (.set members)

/-- The member comes to the set that is there once it has left. -/
def joinSet [DecidableEq φ] (db : Database κ φ) (key : κ) (member : φ) : Option (Database κ φ) :=
  (setAt db key).map fun members => putSet db key (members.insert member)

/-- `none` is an error. -/
def smove [DecidableEq φ] (db : Database κ φ) (source destination : κ) (member : φ) : Option (Database κ φ) :=
  match setAt db source, setAt db destination with
  | some members, some _ =>
    if member ∈ members then joinSet (putSet db source (members.erase member)) destination member else some db
  | _, _ => none

def del (db : Database κ φ) (keys : List κ) : Database κ φ := keys.foldl (fun db key => db.erase key) db

theorem lookup_putSet {key k : κ} (hk : k ≠ key) (members : List φ) :
    (putSet db key members).lookup k = db.lookup k := by
  unfold putSet
  split
  · exact AList.lookup_erase_ne hk
  · exact AList.lookup_insert_ne hk

theorem setAt_putSet (key : κ) (members : List φ) : setAt (putSet db key members) key = some members := by
  unfold putSet setAt
  split_ifs with hmembers
  · rw [AList.lookup_erase, hmembers]
  · rw [AList.lookup_insert]

theorem setAt_insert (key : κ) (members : List φ) : setAt (db.insert key (.set members)) key = some members := by
  rw [setAt, AList.lookup_insert]

theorem setAt_congr {db' : Database κ φ} {key : κ} (h : db'.lookup key = db.lookup key) :
    setAt db' key = setAt db key := by
  rw [setAt, setAt, h]

theorem hashAt_congr {db' : Database κ φ} {key : κ} (h : db'.lookup key = db.lookup key) :
    hashAt db' key = hashAt db key := by
  rw [hashAt, hashAt, h]

theorem lookup_joinSet [DecidableEq φ] {db' : Database κ φ} {key k : κ} (hk : k ≠ key) {member : φ}
    (h : joinSet db key member = some db') : db'.lookup k = db.lookup k := by
  obtain ⟨members, -, rfl⟩ := Option.map_eq_some_iff.mp h
  exact lookup_putSet hk _

theorem lookup_smove [DecidableEq φ] {source destination k : κ} (hsource : k ≠ source)
    (hdestination : k ≠ destination) (member : φ) :
    ((smove db source destination member).getD db).lookup k = db.lookup k := by
  unfold smove
  cases setAt db source with
  | none => rfl
  | some members =>
    cases setAt db destination with
    | none => rfl
    | some there =>
      dsimp only
      split_ifs
      · cases h : joinSet (putSet db source (members.erase member)) destination member with
        | none => rfl
        | some db' => exact (lookup_joinSet hdestination h).trans (lookup_putSet hsource _)
      · rfl

/-- Whoever moves leaves. -/
theorem setAt_smove [DecidableEq φ] {source destination : κ} (hne : source ≠ destination) {members there : List φ}
    (hsource : setAt db source = some members) (hthere : setAt db destination = some there) (member : φ) :
    setAt ((smove db source destination member).getD db) source = some (members.erase member) ∧
      (setAt ((smove db source destination member).getD db) destination).isSome := by
  unfold smove
  rw [hsource, hthere]
  dsimp only
  split_ifs with hmember
  · have hdestination : setAt (putSet db source (members.erase member)) destination = some there :=
      (setAt_congr (lookup_putSet hne.symm _)).trans hthere
    rw [joinSet, hdestination, Option.map_some, Option.getD_some, setAt_putSet]
    exact ⟨(setAt_congr (lookup_putSet hne _)).trans (setAt_putSet _ _), rfl⟩
  · rw [Option.getD_some, List.erase_of_not_mem hmember, hthere]
    exact ⟨hsource, rfl⟩

theorem lookup_del {keys : List κ} {k : κ} (hk : k ∉ keys) : (del db keys).lookup k = db.lookup k := by
  induction keys generalizing db with
  | nil => rfl
  | cons key keys ih =>
    obtain ⟨hne, hrest⟩ := not_or.mp (mt List.mem_cons.mpr hk)
    exact (ih hrest).trans (AList.lookup_erase_ne hne)

end Commands

section Frames
variable [DecidableEq κ] [DecidableEq φ] {db : Database κ φ}

/-- The keys that a command may change. -/
def Command.touches : Command κ φ → List κ
  | .hincrbyfloat key _ _ | .hincrby key _ _ | .zadd key _ _ | .sadd key _ => [key]
  | .rename key newkey => [key, newkey]

theorem lookup_of_touches {c : Command κ φ} {k : κ} (hk : k ∉ c.touches) :
    ((exec db c).getD db).lookup k = db.lookup k := by
  cases c with
  | rename key newkey =>
    obtain ⟨hkey, hnewkey⟩ := not_or.mp (mt List.mem_cons.mpr hk)
    exact lookup_exec_rename hkey (mt List.mem_singleton.mpr hnewkey)
  | _ => exact lookup_exec rfl (mt List.mem_singleton.mpr hk)

theorem lookup_multi_of_touches {cs : List (Command κ φ)} {k : κ} (h : ∀ c ∈ cs, k ∉ c.touches) :
    (multi db cs).lookup k = db.lookup k := by
  induction cs generalizing db with
  | nil => rfl
  | cons c cs ih =>
    obtain ⟨hc, hcs⟩ := List.forall_mem_cons.mp h
    rw [multi_cons, ih hcs, lookup_of_touches hc]

omit [DecidableEq κ] in
theorem mem_insert {members : List φ} (hmembers : members.Nodup) (member : φ) :
    (members.insert member).Nodup ∧ ∀ m, m ∈ members.insert member ↔ m = member ∨ m ∈ members :=
  ⟨hmembers.insert, fun _ => List.mem_insert_iff⟩

omit [DecidableEq κ] in
theorem mem_erase {members : List φ} (hmembers : members.Nodup) (member : φ) :
    (members.erase member).Nodup ∧ ∀ m, m ∈ members.erase member ↔ m ≠ member ∧ m ∈ members :=
  ⟨hmembers.erase _, fun _ => hmembers.mem_erase_iff⟩

theorem exec_sadd {key : κ} {members : List φ} (h : setAt db key = some members) (member : φ) :
    exec db (.sadd key member) = some (db.insert key (.set (members.insert member))) := by
  unfold setAt at h
  rw [exec]
  cases hlookup : db.lookup key with
  | none =>
    rw [hlookup] at h
    cases h
    rfl
  | some v =>
    rw [hlookup] at h
    cases v with
    | set members' =>
      cases h
      rfl
    | hash _ | zset _ => cases h

end Frames

section Increments
variable [DecidableEq κ] [DecidableEq φ] {db : Database κ φ} {key : κ} {fields : AList fun _ : φ => ℚ}

theorem exec_hincrbyfloat (hfields : hashAt db key = some fields) (field : φ) (x : ℚ) :
    exec db (.hincrbyfloat key field x) =
      some (db.insert key (.hash (fields.insert field ((fields.lookup field).getD 0 + x)))) := by
  rw [exec, hfields]
  rfl

omit [DecidableEq φ] in
theorem hashAt_insert (fields' : AList fun _ : φ => ℚ) :
    hashAt (db.insert key (.hash fields')) key = some fields' := by
  rw [hashAt, AList.lookup_insert]

/-- Increments of one hash, one after the other. -/
def addAll (fields : AList fun _ : φ => ℚ) (increments : List (φ × ℚ)) : AList fun _ : φ => ℚ :=
  increments.foldl (fun fields e => fields.insert e.1 ((fields.lookup e.1).getD 0 + e.2)) fields

theorem weigh_addAll (c : φ → ℚ) (increments : List (φ × ℚ)) :
    weigh c (addAll fields increments) = weigh c fields + (increments.map fun e => c e.1 * e.2).sum := by
  induction increments generalizing fields with
  | nil => exact (add_zero _).symm
  | cons e increments ih =>
    refine ih.trans ?_
    rw [weigh_insert, List.map_cons, List.sum_cons, add_assoc]

end Increments
end Aion.Redis
