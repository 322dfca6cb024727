import Daloy.Foundations.JsMap
import Daloy.Foundations.Unicode
import Mathlib.Algebra.Order.Ring.Int

/-! # Strikes and bans

`applyAutoBanStrike` and `MemoryAutoBanStore`, of `src/auto-ban.ts`. Times, in milliseconds, are
whole numbers.

* `applyAutoBanStrike`: what a strike makes of a record.
* `MemoryAutoBanStore.strike`, `MemoryAutoBanStore.get`: the store, at a time.
* `live`: the record that the store has for a key at a time. What is not about the key, and what
  only sweeps, leaves it as it is.
-/

namespace Daloy.AutoBan
set_option autoImplicit false

open Daloy.Unicode

structure AutoBanStrikePolicy where
  windowMs : ℤ
  maxStrikes : ℤ
  banMs : ℤ
  maxBanMs : ℤ
  escalate : Bool
  deriving DecidableEq

structure AutoBanRecord where
  strikes : ℕ
  strikeExpiresMs : ℤ
  bannedUntilMs : ℤ
  banCount : ℕ
  deriving DecidableEq

structure AutoBanStrikeResult where
  strikes : ℕ
  banned : Bool
  banCount : ℕ
  banDurationMs : ℤ
  bannedUntilMs : ℤ
  deriving DecidableEq

/-- What `applyAutoBanStrike` returns. -/
structure Struck where
  record : AutoBanRecord
  ttlMs : ℤ
  result : AutoBanStrikeResult
  deriving DecidableEq

def countedStrikes (record : Option AutoBanRecord) (nowMs : ℤ) : ℕ :=
  match record with
  | some r => if r.strikeExpiresMs > nowMs then r.strikes else 0
  | none => 0

def banDuration (policy : AutoBanStrikePolicy) (banCount : ℕ) : ℤ :=
  if policy.escalate then min policy.maxBanMs (policy.banMs * 2 ^ (banCount - 1)) else policy.banMs

def applyAutoBanStrike (record : Option AutoBanRecord) (policy : AutoBanStrikePolicy)
    (nowMs : ℤ) : Struck :=
  let strikes := countedStrikes record nowMs + 1
  let banCount := (record.map AutoBanRecord.banCount).getD 0
  let bannedUntilMs := (record.map AutoBanRecord.bannedUntilMs).getD 0
  let strikeExpiresMs := nowMs + policy.windowMs
  if (strikes : ℤ) ≥ policy.maxStrikes then
    let banDurationMs := banDuration policy (banCount + 1)
    let bannedUntilMs := nowMs + banDurationMs
    { record := ⟨0, strikeExpiresMs, bannedUntilMs, banCount + 1⟩
      ttlMs := max strikeExpiresMs bannedUntilMs - nowMs
      result := ⟨strikes, true, banCount + 1, banDurationMs, bannedUntilMs⟩ }
  else
    { record := ⟨strikes, strikeExpiresMs, bannedUntilMs, banCount⟩
      ttlMs := max strikeExpiresMs bannedUntilMs - nowMs
      result := ⟨strikes, false, banCount, 0, bannedUntilMs⟩ }

/-! ## One strike -/

section
variable (record : Option AutoBanRecord) (policy : AutoBanStrikePolicy) (nowMs : ℤ)

theorem applyAutoBanStrike_ban
    (h : policy.maxStrikes ≤ (countedStrikes record nowMs + 1 : ℕ)) :
    applyAutoBanStrike record policy nowMs =
      let banCount := (record.map AutoBanRecord.banCount).getD 0 + 1
      let bannedUntilMs := nowMs + banDuration policy banCount
      { record := ⟨0, nowMs + policy.windowMs, bannedUntilMs, banCount⟩
        ttlMs := max (nowMs + policy.windowMs) bannedUntilMs - nowMs
        result := ⟨countedStrikes record nowMs + 1, true, banCount, banDuration policy banCount,
          bannedUntilMs⟩ } := by
  rw [applyAutoBanStrike]
  exact if_pos h

theorem applyAutoBanStrike_count
    (h : ¬ policy.maxStrikes ≤ (countedStrikes record nowMs + 1 : ℕ)) :
    applyAutoBanStrike record policy nowMs =
      let bannedUntilMs := (record.map AutoBanRecord.bannedUntilMs).getD 0
      { record := ⟨countedStrikes record nowMs + 1, nowMs + policy.windowMs, bannedUntilMs,
          (record.map AutoBanRecord.banCount).getD 0⟩
        ttlMs := max (nowMs + policy.windowMs) bannedUntilMs - nowMs
        result := ⟨countedStrikes record nowMs + 1, false,
          (record.map AutoBanRecord.banCount).getD 0, 0, bannedUntilMs⟩ } := by
  rw [applyAutoBanStrike]
  exact if_neg h

theorem banned_iff : (applyAutoBanStrike record policy nowMs).result.banned = true ↔
    policy.maxStrikes ≤ (countedStrikes record nowMs + 1 : ℕ) := by
  by_cases h : policy.maxStrikes ≤ (countedStrikes record nowMs + 1 : ℕ)
  · rw [applyAutoBanStrike_ban _ _ _ h]
    exact ⟨fun _ => h, fun _ => rfl⟩
  · rw [applyAutoBanStrike_count _ _ _ h]
    exact ⟨(by intro hfalse; cases hfalse), fun hban => absurd hban h⟩

theorem struck_lifetime :
    (applyAutoBanStrike record policy nowMs).record.bannedUntilMs =
        (applyAutoBanStrike record policy nowMs).result.bannedUntilMs ∧
      nowMs + (applyAutoBanStrike record policy nowMs).ttlMs =
        max (nowMs + policy.windowMs)
          (applyAutoBanStrike record policy nowMs).result.bannedUntilMs := by
  by_cases h : policy.maxStrikes ≤ (countedStrikes record nowMs + 1 : ℕ)
  · rw [applyAutoBanStrike_ban _ _ _ h]
    exact ⟨rfl, by dsimp only; omega⟩
  · rw [applyAutoBanStrike_count _ _ _ h]
    exact ⟨rfl, by dsimp only; omega⟩

theorem struck_strikes : (applyAutoBanStrike record policy nowMs).record.strikes =
    if (applyAutoBanStrike record policy nowMs).result.banned then 0
    else countedStrikes record nowMs + 1 := by
  by_cases h : policy.maxStrikes ≤ (countedStrikes record nowMs + 1 : ℕ)
  · rw [applyAutoBanStrike_ban _ _ _ h]
    rfl
  · rw [applyAutoBanStrike_count _ _ _ h]
    rfl

end

/-! ## The store -/

structure Entry where
  record : AutoBanRecord
  expiresMs : ℤ
  deriving DecidableEq

abbrev MemoryAutoBanStore := JsMap JsString Entry

namespace MemoryAutoBanStore

def sweep (m : MemoryAutoBanStore) (now : ℤ) : MemoryAutoBanStore :=
  if m.size > 10000 then m.keep fun _ v => decide (¬ v.expiresMs ≤ now) else m

def get (m : MemoryAutoBanStore) (key : JsString) (now : ℤ) :
    MemoryAutoBanStore × Option AutoBanRecord :=
  match m.get? key with
  | none => (m, none)
  | some entry => if entry.expiresMs ≤ now then (m.delete key, none) else (m, some entry.record)

def set (m : MemoryAutoBanStore) (key : JsString) (record : AutoBanRecord) (ttlMs now : ℤ) :
    MemoryAutoBanStore :=
  sweep (JsMap.set m key ⟨record, now + ttlMs⟩) now

def strike (m : MemoryAutoBanStore) (key : JsString) (policy : AutoBanStrikePolicy) (nowMs : ℤ) :
    MemoryAutoBanStore × AutoBanStrikeResult :=
  let current := ((m.get? key).filter fun entry => entry.expiresMs > nowMs).map Entry.record
  let next := applyAutoBanStrike current policy nowMs
  (set m key next.record next.ttlMs nowMs, next.result)

def live (m : MemoryAutoBanStore) (key : JsString) (now : ℤ) : Option AutoBanRecord :=
  ((m.get? key).filter fun entry => entry.expiresMs > now).map Entry.record

theorem get_snd (m : MemoryAutoBanStore) (key : JsString) (now : ℤ) :
    (get m key now).2 = live m key now := by
  rw [get, live]
  cases m.get? key with
  | none => rfl
  | some entry =>
    dsimp only
    by_cases h : entry.expiresMs ≤ now
    · rw [if_pos h, Option.filter_some, if_neg (by simpa using h)]
      rfl
    · rw [if_neg h, Option.filter_some, if_pos (by simpa using h)]
      rfl

theorem get?_sweep (m : MemoryAutoBanStore) (key : JsString) (now : ℤ) :
    (sweep m now).get? key = m.get? key ∨
      (sweep m now).get? key = (m.get? key).filter fun entry => entry.expiresMs > now := by
  rw [sweep]
  split
  · refine .inr ?_
    rw [JsMap.get?_keep]
    cases m.get? key with
    | none => rfl
    | some entry => simp [Option.filter_some]
  · exact .inl rfl

theorem filter_live {entry : Option Entry} {now later : ℤ} (h : now ≤ later) :
    (entry.filter fun e => e.expiresMs > now).filter (fun e => e.expiresMs > later) =
      entry.filter fun e => e.expiresMs > later := by
  rw [Option.filter_filter]
  congr 1
  funext e
  by_cases hlater : e.expiresMs > later
  · have hnow : e.expiresMs > now := by omega
    simp [hlater, hnow]
  · simp [hlater]

theorem live_sweep (m : MemoryAutoBanStore) (key : JsString) {now later : ℤ} (h : now ≤ later) :
    live (sweep m now) key later = live m key later := by
  rw [live, live]
  obtain hsame | hfilter := get?_sweep m key now
  · rw [hsame]
  · rw [hfilter, filter_live h]

theorem live_get (m : MemoryAutoBanStore) (key other : JsString) {now later : ℤ}
    (h : now ≤ later) : live (get m other now).1 key later = live m key later := by
  rw [get]
  cases hget : m.get? other with
  | none => rfl
  | some entry =>
    dsimp only
    split
    · next hexpired =>
      rw [live, live, JsMap.get?_delete]
      by_cases hkey : key = other
      · have hlater : ¬ entry.expiresMs > later := by omega
        rw [if_pos hkey, hkey, hget, Option.filter_some, if_neg (by simpa using hlater)]
        rfl
      · rw [if_neg hkey]
    · rfl

theorem live_strike_other (m : MemoryAutoBanStore) {key other : JsString} (hkey : key ≠ other)
    (policy : AutoBanStrikePolicy) {now later : ℤ} (h : now ≤ later) :
    live (strike m other policy now).1 key later = live m key later := by
  rw [strike]
  dsimp only
  rw [set, live_sweep _ _ h, live, live, JsMap.get?_set, if_neg hkey]

theorem live_strike (m : MemoryAutoBanStore) (key : JsString) (policy : AutoBanStrikePolicy)
    {now later : ℤ} (h : now ≤ later) :
    live (strike m key policy now).1 key later =
      if now + (applyAutoBanStrike (live m key now) policy now).ttlMs > later then
        some (applyAutoBanStrike (live m key now) policy now).record
      else none := by
  rw [strike]
  dsimp only
  rw [set, live_sweep _ _ h, ← live]
  rw [live, JsMap.get?_set, if_pos rfl, Option.filter_some]
  dsimp only
  by_cases hlives : now + (applyAutoBanStrike (live m key now) policy now).ttlMs > later
  · rw [if_pos (by simpa using hlives), if_pos hlives]
    rfl
  · rw [if_neg (by simpa using hlives), if_neg hlives]
    rfl

theorem get?_strike (m : MemoryAutoBanStore) (key : JsString) (policy : AutoBanStrikePolicy)
    (now : ℤ) (h : 0 < (applyAutoBanStrike (live m key now) policy now).ttlMs) :
    (strike m key policy now).1.get? key =
      some ⟨(applyAutoBanStrike (live m key now) policy now).record,
        now + (applyAutoBanStrike (live m key now) policy now).ttlMs⟩ := by
  rw [strike]
  dsimp only
  rw [set, ← live]
  obtain hsame | hfilter := get?_sweep
    (JsMap.set m key ⟨(applyAutoBanStrike (live m key now) policy now).record,
      now + (applyAutoBanStrike (live m key now) policy now).ttlMs⟩) key now
  · rw [hsame, JsMap.get?_set, if_pos rfl]
  · rw [hfilter, JsMap.get?_set, if_pos rfl, Option.filter_some, if_pos]
    exact decide_eq_true (by dsimp only; omega)

theorem strike_snd (m : MemoryAutoBanStore) (key : JsString) (policy : AutoBanStrikePolicy)
    (now : ℤ) : (strike m key policy now).2 =
      (applyAutoBanStrike (live m key now) policy now).result := rfl

end MemoryAutoBanStore

end Daloy.AutoBan
