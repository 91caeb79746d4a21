import Mathlib.Algebra.BigOperators.Group.List.Basic
import Mathlib.Algebra.Order.Ring.Rat
import Mathlib.Data.List.AList

/-! A Redis database with sums over its keys, and the commands that change it. -/

namespace Aion.Redis

section Sums
variable {κ α M : Type} [DecidableEq κ] [AddCommMonoid M]

def sumOver (w : κ → α → M) (s : AList fun _ : κ => α) : M := (s.entries.map fun e => w e.1 e.2).sum

def weightAt (w : κ → α → M) (s : AList fun _ : κ => α) (k : κ) : M := ((s.lookup k).map (w k)).getD 0

theorem entries_erase (s : AList fun _ : κ => α) (k : κ) :
    (s.erase k).entries = s.entries.kerase k := rfl

theorem sumOver_erase (w : κ → α → M) (s : AList fun _ : κ => α) (k : κ) :
    weightAt w s k + sumOver w (s.erase k) = sumOver w s := by
  obtain ⟨entries, nodup⟩ := s
  induction entries with
  | nil => exact zero_add 0
  | cons e entries ih =>
    obtain ⟨k', v⟩ := e
    obtain ⟨hk', hnodup⟩ := List.nodupKeys_cons.mp nodup
    by_cases hk : k = k'
    · subst hk
      simp only [weightAt, sumOver, AList.lookup, entries_erase, List.dlookup_cons_eq,
        List.kerase_cons_eq, Option.map_some, Option.getD_some, List.map_cons, List.sum_cons]
    · have hrest := ih hnodup
      simp only [weightAt, sumOver, AList.lookup, entries_erase] at hrest ⊢
      rw [List.dlookup_cons_ne entries ⟨k', v⟩ hk, List.kerase_cons_ne hk, List.map_cons,
        List.map_cons, List.sum_cons, List.sum_cons, add_left_comm, hrest]

theorem sumOver_insert (w : κ → α → M) (s : AList fun _ : κ => α) (k : κ) (v : α) :
    sumOver w (s.insert k v) = w k v + sumOver w (s.erase k) := by
  rw [sumOver, AList.entries_insert, List.map_cons, List.sum_cons]
  rfl

theorem sumOver_insert_of_zero {w : κ → α → M} {k : κ} (hk : ∀ v, w k v = 0)
    (s : AList fun _ : κ => α) (v : α) : sumOver w (s.insert k v) = sumOver w s := by
  -- A key without weight may be written
  have hat : weightAt w s k = 0 := by
    unfold weightAt
    cases s.lookup k with
    | none => rfl
    | some v => exact hk v
  rw [sumOver_insert, hk, ← sumOver_erase w s k, hat]

end Sums

section Commands
variable {κ φ : Type} [DecidableEq κ] [DecidableEq φ]

inductive Value (φ : Type) where
  | hash (fields : AList fun _ : φ => ℚ)
  | set (members : List φ)
  | zset (scores : AList fun _ : φ => ℤ)

abbrev Database (κ φ : Type) := AList fun _ : κ => Value φ

inductive Command (κ φ : Type) where
  | hincrbyfloat (key : κ) (field : φ) (increment : ℚ)
  | hincrby (key : κ) (field : φ) (increment : ℤ)
  | zadd (key : κ) (score : ℤ) (member : φ)
  | sadd (key : κ) (member : φ)
  | rename (key newkey : κ)

def hashAt (db : Database κ φ) (key : κ) : Option (AList fun _ : φ => ℚ) :=
  match db.lookup key with
  | none => some ∅
  | some (.hash fields) => some fields
  | some _ => none

def increment (db : Database κ φ) (key : κ) (field : φ) (x : ℚ) (fields : AList fun _ : φ => ℚ) : Database κ φ :=
  db.insert key (.hash (fields.insert field ((fields.lookup field).getD 0 + x)))

def IsInt64 (n : ℤ) : Prop := -2 ^ 63 ≤ n ∧ n < 2 ^ 63

instance : DecidablePred IsInt64 := fun _ => inferInstanceAs (Decidable (_ ∧ _))

/-- `HINCRBY` can add `n`. -/
def CanAdd (x : ℚ) (n : ℤ) : Prop := x.den = 1 ∧ IsInt64 x.num ∧ IsInt64 n ∧ IsInt64 (x.num + n)

instance (x : ℚ) (n : ℤ) : Decidable (CanAdd x n) := inferInstanceAs (Decidable (_ ∧ _))

/-- `none` is an error. -/
def exec (db : Database κ φ) : Command κ φ → Option (Database κ φ)
  | .hincrbyfloat key field x => (hashAt db key).map (increment db key field x)
  | .hincrby key field n =>
    (hashAt db key).bind fun fields =>
      if CanAdd ((fields.lookup field).getD 0) n then some (increment db key field n fields) else none
  | .zadd key score member =>
    match db.lookup key with
    | none => some (db.insert key (.zset (AList.singleton member score)))
    | some (.zset scores) => some (db.insert key (.zset (scores.insert member score)))
    | some _ => none
  | .sadd key member =>
    match db.lookup key with
    | none => some (db.insert key (.set [member]))
    | some (.set members) => some (db.insert key (.set (members.insert member)))
    | some _ => none
  | .rename key newkey =>
    (db.lookup key).map fun v => if key = newkey then db else (db.erase key).insert newkey v

/-- `MULTI` and `EXEC`: a command that fails does not keep the others from being executed. -/
def multi (db : Database κ φ) (commands : List (Command κ φ)) : Database κ φ :=
  commands.foldl (fun db command => (exec db command).getD db) db

@[simp] theorem multi_nil (db : Database κ φ) : multi db [] = db := rfl

@[simp] theorem multi_cons (db : Database κ φ) (c : Command κ φ) (cs : List (Command κ φ)) :
    multi db (c :: cs) = multi ((exec db c).getD db) cs := rfl

theorem multi_append (db : Database κ φ) (cs ds : List (Command κ φ)) :
    multi db (cs ++ ds) = multi (multi db cs) ds :=
  List.foldl_append

def Value.total : Value φ → ℚ
  | .hash fields => sumOver (fun _ x => x) fields
  | _ => 0

theorem total_increment (fields : AList fun _ : φ => ℚ) (field : φ) (x : ℚ) :
    (Value.hash (fields.insert field ((fields.lookup field).getD 0 + x))).total =
      (Value.hash fields).total + x := by
  have hat : weightAt (fun _ x => x) fields field = (fields.lookup field).getD 0 := by
    rw [weightAt, Option.map_id']
  rw [Value.total, Value.total, sumOver_insert, ← sumOver_erase _ fields field, hat]
  exact add_right_comm _ x _

def Command.key : Command κ φ → κ
  | .hincrbyfloat key _ _ | .hincrby key _ _ | .zadd key _ _ | .sadd key _ | .rename key _ => key

def Command.isRename : Command κ φ → Bool
  | .rename _ _ => true
  | _ => false

/-- A command other than `rename` writes its key, if it does not fail. -/
theorem exec_insert {db db' : Database κ φ} {c : Command κ φ} (hc : c.isRename = false)
    (h : exec db c = some db') : ∃ v, db' = db.insert c.key v := by
  cases c with
  | hincrbyfloat key field x =>
    obtain ⟨fields, -, rfl⟩ := Option.map_eq_some_iff.mp h
    exact ⟨_, rfl⟩
  | hincrby key field n =>
    obtain ⟨fields, -, hfields⟩ := Option.bind_eq_some_iff.mp h
    split_ifs at hfields
    exact ⟨_, (Option.some_inj.mp hfields).symm⟩
  | zadd key score member =>
    simp only [exec] at h
    split at h
    · exact ⟨_, (Option.some_inj.mp h).symm⟩
    · exact ⟨_, (Option.some_inj.mp h).symm⟩
    · cases h
  | sadd key member =>
    simp only [exec] at h
    split at h
    · exact ⟨_, (Option.some_inj.mp h).symm⟩
    · exact ⟨_, (Option.some_inj.mp h).symm⟩
    · cases h
  | rename key newkey => cases hc

theorem lookup_exec {db : Database κ φ} {c : Command κ φ} (hc : c.isRename = false) {k : κ}
    (hk : k ≠ c.key) : ((exec db c).getD db).lookup k = db.lookup k := by
  cases h : exec db c with
  | none => rfl
  | some db' =>
    obtain ⟨v, rfl⟩ := exec_insert hc h
    exact AList.lookup_insert_ne hk

theorem lookup_exec_rename {db : Database κ φ} {key newkey k : κ} (hk : k ≠ key)
    (hk' : k ≠ newkey) : ((exec db (.rename key newkey)).getD db).lookup k = db.lookup k := by
  rw [exec]
  cases db.lookup key with
  | none => rfl
  | some v =>
    rw [Option.map_some, Option.getD_some]
    split
    · rfl
    · rw [AList.lookup_insert_ne hk', AList.lookup_erase_ne hk]

/-- Commands on other keys, one after the other. -/
theorem lookup_multi {db : Database κ φ} {cs : List (Command κ φ)} {k : κ}
    (h : ∀ c ∈ cs, c.isRename = false ∧ k ≠ c.key) : (multi db cs).lookup k = db.lookup k := by
  induction cs generalizing db with
  | nil => rfl
  | cons c cs ih =>
    obtain ⟨⟨hrename, hk⟩, hcs⟩ := List.forall_mem_cons.mp h
    rw [multi_cons, ih hcs, lookup_exec hrename hk]

theorem sumOver_exec {w : κ → Value φ → ℚ} {db : Database κ φ} {c : Command κ φ}
    (hc : c.isRename = false) (hk : ∀ v, w c.key v = 0) :
    sumOver w ((exec db c).getD db) = sumOver w db := by
  -- A command on a key without weight does not change the sum
  cases h : exec db c with
  | none => rfl
  | some db' =>
    obtain ⟨v, rfl⟩ := exec_insert hc h
    exact sumOver_insert_of_zero hk db v

theorem sumOver_multi {w : κ → Value φ → ℚ} {db : Database κ φ} {cs : List (Command κ φ)}
    (h : ∀ c ∈ cs, c.isRename = false ∧ ∀ v, w c.key v = 0) :
    sumOver w (multi db cs) = sumOver w db := by
  induction cs generalizing db with
  | nil => rfl
  | cons c cs ih =>
    obtain ⟨⟨hrename, hk⟩, hcs⟩ := List.forall_mem_cons.mp h
    rw [multi_cons, ih hcs, sumOver_exec hrename hk]

end Commands
end Aion.Redis
