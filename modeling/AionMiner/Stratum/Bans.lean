import Mathlib.Algebra.Order.Floor.Ring
import Mathlib.Data.Rat.Floor
import AionMiner.Text.Hex

/-! The table of banned addresses in `stratum.js`, which connections and a timer expire. -/

namespace Aion.Stratum
open Text

section Code

/-- Enabled `options.banning`: `time` is in seconds, the clock in milliseconds. -/
structure BanOptions where
  time : ℚ

def BanOptions.bannedMS (banning : BanOptions) : ℚ := banning.time * 1000

abbrev BannedIPs := Str → Option ℤ

inductive BanEvent where
  | triggerBan (remoteAddress : Str)
  | purge
  | connect (remoteAddress : Str)

structure Timed where
  now : ℤ
  event : BanEvent

/-- The event that `checkBan` emits, with the seconds that are left of a ban. -/
inductive Checked where
  | kickedBannedIP (timeLeft : ℤ)
  | forgaveBannedIP
  | unknown

def checkBan (banning : BanOptions) (now : ℤ) (bannedIPs : BannedIPs) (remoteAddress : Str) : Checked × BannedIPs :=
  match bannedIPs remoteAddress with
  | none => (.unknown, bannedIPs)
  | some bannedTime =>
    let bannedTimeAgo := now - bannedTime
    let timeLeft := banning.bannedMS - bannedTimeAgo
    if 0 < timeLeft then (.kickedBannedIP (BitVec.ofInt 32 ⌊timeLeft / 1000⌋).toInt, bannedIPs)
    else (.forgaveBannedIP, Function.update bannedIPs remoteAddress none)

def addBannedIP (now : ℤ) (bannedIPs : BannedIPs) (ipAddress : Str) : BannedIPs :=
  Function.update bannedIPs ipAddress (some now)

/-- The interval that looks for old bans. -/
def purgeBans (banning : BanOptions) (now : ℤ) (bannedIPs : BannedIPs) : BannedIPs := fun ip =>
  (bannedIPs ip).filter fun banTime => ¬banning.time < ((now - banTime : ℤ) : ℚ)

def BannedIPs.step (banning : BanOptions) (bannedIPs : BannedIPs) (e : Timed) : BannedIPs :=
  match e.event with
  | .triggerBan remoteAddress => addBannedIP e.now bannedIPs remoteAddress
  | .purge => purgeBans banning e.now bannedIPs
  | .connect remoteAddress => (checkBan banning e.now bannedIPs remoteAddress).2

def bansAfter (banning : BanOptions) (events : List Timed) : BannedIPs :=
  events.foldl (BannedIPs.step banning) fun _ => none

def Refused (banning : BanOptions) (past : List Timed) (now : ℤ) (remoteAddress : Str) : Prop :=
  ∃ timeLeft, (checkBan banning now (bansAfter banning past) remoteAddress).1 = .kickedBannedIP timeLeft

end Code

section History

def lastBan (ip : Str) (past : List Timed) : Option ℤ :=
  past.foldl (fun last e => match e.event with
    | .triggerBan remoteAddress => if remoteAddress = ip then some e.now else last
    | _ => last) none

theorem lastBan_concat (ip : Str) (past : List Timed) (e : Timed) :
    lastBan ip (past ++ [e]) = match e.event with
      | .triggerBan remoteAddress => if remoteAddress = ip then some e.now else lastBan ip past
      | _ => lastBan ip past := by
  unfold lastBan
  rw [List.foldl_append]
  rfl

theorem bansAfter_concat (banning : BanOptions) (past : List Timed) (e : Timed) :
    bansAfter banning (past ++ [e]) = (bansAfter banning past).step banning e := by
  unfold bansAfter
  rw [List.foldl_append]
  rfl

/-- The clock does not go back. -/
def InTime (events : List Timed) : Prop := events.Pairwise fun a b => a.now ≤ b.now

theorem InTime.concat {past : List Timed} {e : Timed} (h : InTime (past ++ [e])) :
    InTime past ∧ ∀ a ∈ past, a.now ≤ e.now := by
  obtain ⟨hpast, -, hlast⟩ := List.pairwise_append.mp h
  exact ⟨hpast, fun a ha => hlast a ha e (List.mem_singleton_self e)⟩

end History

section Entries
variable {banning : BanOptions} {ip : Str}

/-- What the table says of an address, against its last ban at `t₀`: the entry is that ban and no
purge has found it too old, or a purge or the end of the ban has removed it. -/
structure Entry (banning : BanOptions) (ip : Str) (past : List Timed) (bannedIPs : BannedIPs) (t₀ : ℤ) : Prop where
  kept : ∀ banTime, bannedIPs ip = some banTime → banTime = t₀ ∧
    ∀ t₁, ⟨t₁, .purge⟩ ∈ past → 0 ≤ banning.time → ((t₁ - t₀ : ℤ) : ℚ) ≤ banning.time
  lost : bannedIPs ip = none → (∃ t₁, ⟨t₁, .purge⟩ ∈ past ∧ banning.time < ((t₁ - t₀ : ℤ) : ℚ)) ∨
    ∃ e ∈ past, banning.bannedMS ≤ ((e.now - t₀ : ℤ) : ℚ)

theorem mem_concat_purge {past : List Timed} {e : Timed} {t₁ : ℤ} (he : e.event ≠ .purge)
    (h : ⟨t₁, .purge⟩ ∈ past ++ [e]) : ⟨t₁, .purge⟩ ∈ past := by
  obtain h | h := List.mem_append.mp h
  · exact h
  · exact absurd (congrArg Timed.event (List.mem_singleton.mp h)).symm he

theorem Entry.concat {past : List Timed} {s s' : BannedIPs} {t₀ : ℤ}
    (h : Entry banning ip past s t₀) {e : Timed} (he : e.event ≠ .purge) (hs : s' ip = s ip) :
    Entry banning ip (past ++ [e]) s' t₀ where
  kept banTime hban := by
  -- An event that leaves the entry of an address alone
    obtain ⟨heq, hpurge⟩ := h.kept banTime (hs ▸ hban)
    exact ⟨heq, fun t₁ ht₁ => hpurge t₁ (mem_concat_purge he ht₁)⟩
  lost hnone := by
    obtain ⟨t₁, ht₁, hlt⟩ | ⟨a, ha, hle⟩ := h.lost (hs ▸ hnone)
    · exact .inl ⟨t₁, List.mem_append_left _ ht₁, hlt⟩
    · exact .inr ⟨a, List.mem_append_left _ ha, hle⟩

theorem Entry.purge {past : List Timed} {s : BannedIPs} {t₀ : ℤ} (h : Entry banning ip past s t₀)
    (now : ℤ) : Entry banning ip (past ++ [⟨now, .purge⟩]) (purgeBans banning now s) t₀ where
  kept banTime hban := by
    obtain ⟨hs, hkeep⟩ := Option.filter_eq_some_iff.mp hban
    obtain ⟨rfl, hpurge⟩ := h.kept banTime hs
    refine ⟨rfl, fun t₁ ht₁ hnonneg => ?_⟩
    obtain ht₁ | ht₁ := List.mem_append.mp ht₁
    · exact hpurge t₁ ht₁ hnonneg
    · cases List.mem_singleton.mp ht₁
      exact not_lt.mp (of_decide_eq_true hkeep)
  lost hnone := by
    cases hs : s ip with
    | none =>
      obtain ⟨t₁, ht₁, hlt⟩ | ⟨a, ha, hle⟩ := h.lost hs
      · exact .inl ⟨t₁, List.mem_append_left _ ht₁, hlt⟩
      · exact .inr ⟨a, List.mem_append_left _ ha, hle⟩
    | some banTime =>
      obtain ⟨rfl, -⟩ := h.kept banTime hs
      refine .inl ⟨now, List.mem_append_right _ (List.mem_singleton_self _), ?_⟩
      by_contra hlt
      have hkeep : purgeBans banning now s ip = some banTime :=
        Option.filter_eq_some_iff.mpr ⟨hs, decide_eq_true hlt⟩
      rw [hkeep] at hnone
      cases hnone

theorem checkBan_eq (now : ℤ) (s : BannedIPs) (remoteAddress : Str) :
    checkBan banning now s remoteAddress =
      match s remoteAddress with
      | none => (.unknown, s)
      | some bannedTime =>
        if ((now - bannedTime : ℤ) : ℚ) < banning.bannedMS then
          (.kickedBannedIP (BitVec.ofInt 32 ⌊(banning.bannedMS - (now - bannedTime : ℤ)) / 1000⌋).toInt, s)
        else (.forgaveBannedIP, Function.update s remoteAddress none) := by
  unfold checkBan
  cases s remoteAddress with
  | none => rfl
  | some bannedTime => simp only [sub_pos]

theorem Entry.connect {past : List Timed} {s : BannedIPs} {t₀ : ℤ}
    (h : Entry banning ip past s t₀) (now : ℤ) (remoteAddress : Str) :
    Entry banning ip (past ++ [⟨now, .connect remoteAddress⟩])
    (checkBan banning now s remoteAddress).2 t₀ := by
  have hpurge : (Timed.mk now (.connect remoteAddress)).event ≠ .purge := BanEvent.noConfusion
  rw [checkBan_eq]
  cases hs : s remoteAddress with
  | none => exact h.concat hpurge rfl
  | some bannedTime =>
    dsimp only
    split_ifs with hlt
    · exact h.concat hpurge rfl
    · by_cases hip : ip = remoteAddress
      · -- the ban has ended
        subst hip
        obtain ⟨rfl, -⟩ := h.kept bannedTime hs
        refine ⟨fun banTime hban => ?_, fun _ => ?_⟩
        · dsimp only at hban
          rw [Function.update_self] at hban
          cases hban
        · exact .inr ⟨_, List.mem_append_right _ (List.mem_singleton_self _), not_lt.mp hlt⟩
      · exact h.concat hpurge (Function.update_of_ne hip ..)

/-- The entry of a new ban. -/
theorem Entry.triggerBan {past : List Timed} {now : ℤ} (hle : ∀ a ∈ past, a.now ≤ now)
    (s : BannedIPs) :
    Entry banning ip (past ++ [⟨now, .triggerBan ip⟩]) (addBannedIP now s ip) now where
  kept banTime hban := by
    rw [addBannedIP, Function.update_self] at hban
    cases hban
    refine ⟨rfl, fun t₁ ht₁ hnonneg => le_trans ?_ hnonneg⟩
    have ht₁ := hle _ (mem_concat_purge BanEvent.noConfusion ht₁)
    exact_mod_cast Int.sub_nonpos_of_le ht₁
  lost hlost := by
    rw [addBannedIP, Function.update_self] at hlost
    cases hlost

theorem step_none {s : BannedIPs} {e : Timed} (hs : s ip = none) (he : e.event ≠ .triggerBan ip) :
    s.step banning e ip = none := by
  -- Only a ban of an address makes an entry for it
  unfold BannedIPs.step
  cases hevent : e.event with
  | triggerBan remoteAddress =>
    have hne : ip ≠ remoteAddress := by
      rintro rfl
      exact he hevent
    exact (Function.update_of_ne hne ..).trans hs
  | purge =>
    change (s ip).filter _ = none
    rw [hs, Option.filter_none]
  | connect remoteAddress =>
    dsimp only
    rw [checkBan_eq]
    cases hban : s remoteAddress with
    | none => exact hs
    | some bannedTime =>
      have hne : ip ≠ remoteAddress := by
        rintro rfl
        rw [hs] at hban
        cases hban
      dsimp only
      split_ifs
      · exact hs
      · exact (Function.update_of_ne hne ..).trans hs

theorem entry_after {past : List Timed} (h : InTime past) :
    (lastBan ip past = none → bansAfter banning past ip = none) ∧
      ∀ t₀, lastBan ip past = some t₀ → (∃ e ∈ past, e.now = t₀) ∧
      Entry banning ip past (bansAfter banning past) t₀ := by
  induction past using List.reverseRecOn with
  | nil => exact ⟨fun _ => rfl, fun t₀ ht₀ => nomatch ht₀⟩
  | append_singleton past e ih =>
    obtain ⟨hpast, hle⟩ := h.concat
    obtain ⟨hnone, hsome⟩ := ih hpast
    have hmem : ∀ t₀, (∃ a ∈ past, a.now = t₀) → ∃ a ∈ past ++ [e], a.now = t₀ := by
      rintro t₀ ⟨a, ha, hat₀⟩
      exact ⟨a, List.mem_append_left _ ha, hat₀⟩
    rw [bansAfter_concat]
    by_cases hban : e.event = .triggerBan ip
    · obtain ⟨now, event⟩ := e
      cases hban
      have hlast : lastBan ip (past ++ [⟨now, .triggerBan ip⟩]) = some now := by
        rw [lastBan_concat]
        exact if_pos rfl
      rw [hlast]
      refine ⟨fun hno => absurd hno (Option.some_ne_none now), fun t₀ ht₀ => ?_⟩
      cases ht₀
      exact ⟨⟨_, List.mem_append_right _ (List.mem_singleton_self _), rfl⟩, Entry.triggerBan hle _⟩
    have hlast : lastBan ip (past ++ [e]) = lastBan ip past := by
      rw [lastBan_concat]
      split
      · rename_i remoteAddress hevent
        apply if_neg
        rintro rfl
        exact hban hevent
      · rfl
    rw [hlast]
    refine ⟨fun hlast => step_none (hnone hlast) hban, fun t₀ ht₀ => ?_⟩
    obtain ⟨hin, hentry⟩ := hsome t₀ ht₀
    refine ⟨hmem t₀ hin, ?_⟩
    obtain ⟨now, event⟩ := e
    cases event with
    | triggerBan remoteAddress =>
      have hne : ip ≠ remoteAddress := by
        rintro rfl
        exact hban rfl
      exact hentry.concat BanEvent.noConfusion (Function.update_of_ne hne ..)
    | purge => exact hentry.purge now
    | connect remoteAddress => exact hentry.connect now remoteAddress

theorem refused_iff (banning : BanOptions) (past : List Timed) (now : ℤ) (ip : Str) :
    Refused banning past now ip ↔
      ∃ banTime, bansAfter banning past ip = some banTime ∧ ((now - banTime : ℤ) : ℚ) < banning.bannedMS := by
  unfold Refused
  rw [checkBan_eq]
  cases bansAfter banning past ip with
  | none => simp
  | some banTime =>
    dsimp only
    split_ifs with hlt
    · exact iff_of_true ⟨_, rfl⟩ ⟨banTime, rfl, hlt⟩
    · refine iff_of_false ?_ ?_
      · rintro ⟨timeLeft, hkicked⟩
        cases hkicked
      · rintro ⟨_, hban, hlt'⟩
        cases hban
        exact hlt hlt'

/-- The last ban of an address still lasts. -/
def Lasts (banning : BanOptions) (past : List Timed) (now : ℤ) (ip : Str) : Prop :=
  ∃ t₀, lastBan ip past = some t₀ ∧ t₀ ≤ now ∧ ((now - t₀ : ℤ) : ℚ) < 1000 * banning.time

/-- A connection is refused while the ban lasts and not otherwise, if and only if no purge has come
more than `banning.time` milliseconds after a ban that still lasts. -/
theorem ban_lasts_iff (banning : BanOptions) {past : List Timed} {now : ℤ} {ip : Str}
    (h : InTime (past ++ [⟨now, .connect ip⟩])) :
    (Refused banning past now ip ↔ Lasts banning past now ip) ↔
      ∀ t₀, lastBan ip past = some t₀ → ((now - t₀ : ℤ) : ℚ) < 1000 * banning.time →
        ∀ t₁, ⟨t₁, .purge⟩ ∈ past → ((t₁ - t₀ : ℤ) : ℚ) ≤ banning.time := by
  obtain ⟨hpast, hle⟩ := h.concat
  obtain ⟨hnone, hsome⟩ := @entry_after banning ip past hpast
  have hms : banning.bannedMS = 1000 * banning.time := mul_comm ..
  unfold Lasts
  rw [refused_iff, hms]
  cases hlast : lastBan ip past with
  | none =>
    rw [hnone hlast]
    refine iff_of_true (iff_of_false ?_ ?_) fun t₀ ht₀ => by cases ht₀
    · rintro ⟨banTime, hban, -⟩
      cases hban
    · rintro ⟨t₀, ht₀, -⟩
      cases ht₀
  | some t₀ =>
    obtain ⟨⟨e, he, rfl⟩, hentry⟩ := hsome _ hlast
    have hnow : e.now ≤ now := hle e he
    simp only [Option.some.injEq, exists_eq_left', forall_eq', hnow, true_and]
    by_cases hlt : ((now - e.now : ℤ) : ℚ) < 1000 * banning.time
    swap
    · -- the ban is over
      refine iff_of_true (iff_of_false ?_ hlt) fun h => absurd h hlt
      rintro ⟨banTime, hban, hban'⟩
      rw [(hentry.kept banTime hban).1] at hban'
      exact hlt hban'
    have hnonneg : 0 ≤ banning.time := by
      have hsub : (0 : ℚ) ≤ ((now - e.now : ℤ) : ℚ) := by exact_mod_cast Int.sub_nonneg_of_le hnow
      linarith
    constructor
    · intro hrefused _ t₁ ht₁
      obtain ⟨banTime, hban, -⟩ := hrefused.mpr hlt
      exact (hentry.kept banTime hban).2 t₁ ht₁ hnonneg
    · intro hpurges
      refine iff_of_true ?_ hlt
      cases hban : bansAfter banning past ip with
      | some banTime =>
        refine ⟨banTime, rfl, ?_⟩
        rwa [(hentry.kept banTime hban).1]
      | none =>
        obtain ⟨t₁, ht₁, hgt⟩ | ⟨a, ha, hge⟩ := hentry.lost hban
        · exact absurd (hpurges hlt t₁ ht₁) (not_le.mpr hgt)
        · -- the end of the ban would have come before
          have hale : ((a.now - e.now : ℤ) : ℚ) ≤ ((now - e.now : ℤ) : ℚ) := by
            exact_mod_cast Int.sub_le_sub_right (hle a ha) _
          exact absurd (hge.trans hale) (not_le.mpr (hms ▸ hlt))

end Entries

section Purged

def tenMinutes : BanOptions := ⟨600⟩

def address : Str := [unit '9']

def purged : List Timed := [⟨0, .triggerBan address⟩, ⟨300000, .purge⟩]

theorem ban_lasts_purged :
    (Refused tenMinutes purged 300001 address ↔ Lasts tenMinutes purged 300001 address) ↔
      ∀ t₀, lastBan address purged = some t₀ → ((300001 - t₀ : ℤ) : ℚ) < 1000 * tenMinutes.time →
        ∀ t₁, ⟨t₁, .purge⟩ ∈ purged → ((t₁ - t₀ : ℤ) : ℚ) ≤ tenMinutes.time :=
  ban_lasts_iff tenMinutes (by unfold InTime purged; decide)

/-- The ban is forgotten halfway through. -/
theorem ban_forgotten :
    InTime (purged ++ [⟨300001, .connect address⟩]) ∧ ¬Refused tenMinutes purged 300001 address ∧
      Lasts tenMinutes purged 300001 address := by
  refine ⟨by unfold InTime purged; decide, ?_, 0, rfl, by decide, by norm_num [tenMinutes]⟩
  rw [refused_iff]
  rintro ⟨banTime, hban, -⟩
  have hnone : bansAfter tenMinutes purged address = none := by decide +kernel
  rw [hnone] at hban
  cases hban

end Purged
end Aion.Stratum
