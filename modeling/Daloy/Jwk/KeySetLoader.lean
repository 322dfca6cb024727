import Daloy.Foundations.Runs
import Mathlib.Algebra.Order.Field.Rat
import Mathlib.Data.Rat.Cast.Order
import Mathlib.Tactic.Linarith

/-! # The loader of key sets

`makeJwksLoader` of `src/jwk.ts`, for a URL. A step is what runs without an `await`: a call of the
loader, or the end of a fetch with what follows it. The clock does not move inside a step.

* `Loader`: the variables of the closure, and the promises that it made.
* `World`: the loader, with the latest success and the latest failure since it.
* `Inv`: what every step keeps, when no fetch throws before it gives a promise.
-/

namespace Daloy.Jwk
set_option autoImplicit false

open Daloy.Runs

variable {κ : Type}

/-! ## The source -/

structure Config where
  ttlSeconds : ℚ
  maxStaleSeconds : ℚ

namespace Config

def ttl (cfg : Config) : ℚ := cfg.ttlSeconds * 1000
def grace (cfg : Config) : ℚ := (cfg.ttlSeconds + cfg.maxStaleSeconds) * 1000
def retryCooldownMs (cfg : Config) : ℚ := min (cfg.ttlSeconds * 1000) 10000

end Config

def age (now time : ℕ) : ℚ := now - time

inductive LoadError
  | fetch
  | status (status : ℕ)
  | tooLarge
  | notJson
  | notJwkSet
  deriving DecidableEq

/-- A body: beyond `MAX_JWKS_BYTES`, no JSON, or a value that is a key set or none. -/
inductive Body (κ : Type)
  | tooLarge
  | notJson
  | json (jwks : Option κ)

structure Response (κ : Type) where
  ok : Bool
  status : ℕ
  body : Body κ

/-- What the `try` block makes of a fetch; `none` where it rejects. -/
def readJwks : Option (Response κ) → Except LoadError κ
  | none => .error .fetch
  | some res =>
    if !res.ok then .error (.status res.status)
    else
      match res.body with
      | .tooLarge => .error .tooLarge
      | .notJson => .error .notJson
      | .json none => .error .notJwkSet
      | .json (some jwks) => .ok jwks

structure JwksCacheEntry (κ : Type) where
  jwks : κ
  fetchedAt : ℕ
  deriving DecidableEq

/-- The variables of the closure, and the promises of its async function, `none` while pending. -/
structure Loader (κ : Type) where
  cache : Option (JwksCacheEntry κ)
  lastFailedRefreshAt : ℕ
  inflight : Option ℕ
  promises : List (Option (Except LoadError κ))

inductive Answer (κ : Type)
  | value (jwks : κ)
  | promise (id : ℕ)

namespace Loader

def start : Loader κ := ⟨none, 0, none, []⟩

def fresh (cfg : Config) (s : Loader κ) (now : ℕ) : Option κ :=
  match s.cache with
  | some cache => if age now cache.fetchedAt < cfg.ttl then some cache.jwks else none
  | none => none

def cooling (cfg : Config) (s : Loader κ) (now : ℕ) : Option κ :=
  match s.cache with
  | some cache =>
    if 0 < cfg.maxStaleSeconds ∧ 0 < cfg.retryCooldownMs ∧ 0 < s.lastFailedRefreshAt ∧
        age now s.lastFailedRefreshAt < cfg.retryCooldownMs ∧
        age now cache.fetchedAt < cfg.grace then
      some cache.jwks
    else none
  | none => none

/-- The async function behind the fetch: the end of `try`, or `catch`, and then `finally`. -/
def finish (cfg : Config) (s : Loader κ) (now : ℕ) (result : Except LoadError κ) :
    Loader κ × Except LoadError κ :=
  match result with
  | .ok jwks =>
    ({ s with lastFailedRefreshAt := 0, cache := some ⟨jwks, now⟩, inflight := none }, .ok jwks)
  | .error err =>
    match s.cache with
    | some cache =>
      if 0 < cfg.maxStaleSeconds ∧ age now cache.fetchedAt < cfg.grace then
        ({ s with lastFailedRefreshAt := now, inflight := none }, .ok cache.jwks)
      else ({ s with inflight := none }, .error err)
    | none => ({ s with inflight := none }, .error err)

/-- The call of the async function and the assignment of its promise. A fetch that throws has the
function end before the promise is stored. -/
def begin (cfg : Config) (s : Loader κ) (now : ℕ) (thrown : Option LoadError) :
    Loader κ × Answer κ :=
  let id := s.promises.length
  match thrown with
  | none => ({ s with promises := s.promises ++ [none], inflight := some id }, .promise id)
  | some err =>
    let ended := s.finish cfg now (.error err)
    ({ ended.1 with promises := ended.1.promises ++ [some ended.2], inflight := some id },
      .promise id)

/-- A call of the loader, with what `fetchImpl` throws if it is called. -/
def load (cfg : Config) (s : Loader κ) (now : ℕ) (thrown : Option LoadError) :
    Loader κ × Answer κ :=
  match s.fresh cfg now with
  | some jwks => (s, .value jwks)
  | none =>
    match s.cooling cfg now with
    | some jwks => (s, .value jwks)
    | none =>
      match s.inflight with
      | some id => (s, .promise id)
      | none => s.begin cfg now thrown

def settle (cfg : Config) (s : Loader κ) (now id : ℕ) (result : Option (Response κ)) :
    Loader κ × Except LoadError κ :=
  let ended := s.finish cfg now (readJwks result)
  ({ ended.1 with promises := ended.1.promises.set id (some ended.2) }, ended.2)

def isPending (s : Loader κ) (id : ℕ) : Bool := s.promises[id]?.any Option.isNone

def running (s : Loader κ) : ℕ := s.promises.countP Option.isNone

def delivered (s : Loader κ) : Answer κ → Option (Except LoadError κ)
  | .value jwks => some (.ok jwks)
  | .promise id => s.promises[id]?.join

def begins (cfg : Config) (s : Loader κ) (now : ℕ) : Bool :=
  (s.fresh cfg now).isNone && (s.cooling cfg now).isNone && s.inflight.isNone

end Loader

/-! ## Runs -/

structure World (κ : Type) where
  loader : Loader κ
  clock : ℕ
  last : Option (JwksCacheEntry κ)
  failedAt : Option ℕ

def World.start : World κ := ⟨.start, 0, none, none⟩

inductive Event (κ : Type)
  /-- A call, and what the fetch throws. -/
  | load (now : ℕ) (thrown : Option LoadError)
  /-- A fetch settles. -/
  | settle (now id : ℕ) (result : Option (Response κ))

/-- Whether a fetch starts, and what callers receive in a step. -/
structure Output (κ : Type) where
  started : Bool
  delivered : Option (Except LoadError κ)

/-- A step at a time that is not in the past. Only a fetch in flight can settle. -/
def stepOut (cfg : Config) (w : World κ) : Event κ → Option (World κ × Output κ)
  | .load now thrown =>
    if w.clock ≤ now then
      let called := w.loader.load cfg now thrown
      let begins := w.loader.begins cfg now
      some ({ w with
          loader := called.1
          clock := now
          failedAt := if begins && thrown.isSome then some now else w.failedAt },
        ⟨begins, called.1.delivered called.2⟩)
    else none
  | .settle now id result =>
    if w.clock ≤ now ∧ w.loader.isPending id = true then
      let settled := w.loader.settle cfg now id result
      match readJwks result with
      | .ok jwks => some (⟨settled.1, now, some ⟨jwks, now⟩, none⟩, ⟨false, some settled.2⟩)
      | .error _ => some (⟨settled.1, now, w.last, some now⟩, ⟨false, some settled.2⟩)
    else none

def step (cfg : Config) (w : World κ) (e : Event κ) : Option (World κ) :=
  (stepOut cfg w e).map Prod.fst

structure Sound (cfg : Config) (w : World κ) (e : Event κ) (w' : World κ) (out : Output κ) :
    Prop where
  /-- At most one fetch is in flight. -/
  single : w'.loader.running ≤ 1
  /-- A key set that is handed over is the latest, within its time or within the grace. -/
  current : ∀ jwks, out.delivered = some (.ok jwks) → ∃ fetchedAt, w'.last = some ⟨jwks, fetchedAt⟩ ∧
    (age w'.clock fetchedAt < cfg.ttl ∨
      w'.failedAt.isSome = true ∧ age w'.clock fetchedAt < cfg.grace)
  /-- A fetch that fails with no key set, or past the grace of the last, rejects. -/
  rejects : ∀ now id result err, e = .settle now id result → readJwks result = .error err →
    (∀ last, w.last = some last → cfg.grace ≤ age now last.fetchedAt) →
      out.delivered = some (.error err)
  /-- Shortly after a failure the stale set is served and no fetch starts. -/
  cools : ∀ now thrown failedAt last, e = .load now thrown → w.failedAt = some failedAt →
    age now failedAt < cfg.retryCooldownMs → w.last = some last → 0 < cfg.maxStaleSeconds →
      age now last.fetchedAt < cfg.grace →
        out.started = false ∧ out.delivered = some (.ok last.jwks)
  /-- With no fetch in flight, a call outside both times starts one. -/
  recovers : ∀ now thrown, e = .load now thrown → w.loader.running = 0 →
    (∀ last, w.last = some last → cfg.ttl ≤ age now last.fetchedAt) →
      (∀ failedAt, w.failedAt = some failedAt → cfg.retryCooldownMs ≤ age now failedAt) →
        out.started = true

def SoundStep (cfg : Config) (w : World κ) (e : Event κ) : Prop :=
  ∀ w' out, stepOut cfg w e = some (w', out) → Sound cfg w e w' out

/-- The fetch of this step, if there is one, does not throw before it gives a promise. -/
def NoThrow (cfg : Config) (w : World κ) : Event κ → Prop
  | .load now (some _) => w.loader.begins cfg now = false
  | _ => True

instance (cfg : Config) (w : World κ) : ∀ e, Decidable (NoThrow cfg w e)
  | .load now (some _) => inferInstanceAs (Decidable (w.loader.begins cfg now = false))
  | .load _ none => .isTrue trivial
  | .settle .. => .isTrue trivial

structure Inv (cfg : Config) (w : World κ) : Prop where
  cache : w.loader.cache = w.last
  /-- Between fetches nothing is stored; a fetch in flight is the one stored, and it began when the
  cache was past its time. -/
  flight : (w.loader.inflight = none ∧ w.loader.running = 0) ∨
    ∃ id, w.loader.inflight = some id ∧ w.loader.isPending id = true ∧ w.loader.running = 1 ∧
      ∀ last, w.last = some last → cfg.ttl ≤ age w.clock last.fetchedAt
  past : ∀ failedAt, w.failedAt = some failedAt → failedAt ≤ w.clock
  stamped : 0 < w.loader.lastFailedRefreshAt →
    ∃ failedAt, w.failedAt = some failedAt ∧ w.loader.lastFailedRefreshAt ≤ failedAt
  stamps : ∀ failedAt last, w.failedAt = some failedAt → w.last = some last →
    0 < cfg.maxStaleSeconds → age failedAt last.fetchedAt < cfg.grace →
      w.loader.lastFailedRefreshAt = failedAt ∧ 0 < failedAt

theorem inv_start (cfg : Config) : Inv cfg (World.start : World κ) where
  cache := rfl
  flight := .inl ⟨rfl, rfl⟩
  past := by rintro _ ⟨⟩
  stamped := fun h => absurd h (Nat.lt_irrefl 0)
  stamps := by rintro _ _ ⟨⟩

theorem age_mono {now now' : ℕ} (h : now ≤ now') (time : ℕ) : age now time ≤ age now' time := by
  rw [age, age]
  have hcast : (now : ℚ) ≤ now' := by exact_mod_cast h
  linarith

theorem age_anti {time time' : ℕ} (h : time ≤ time') (now : ℕ) : age now time' ≤ age now time := by
  rw [age, age]
  have hcast : (time : ℚ) ≤ time' := by exact_mod_cast h
  linarith

theorem age_nonneg {now time : ℕ} (h : time ≤ now) : 0 ≤ age now time := by
  rw [age]
  have hcast : (time : ℚ) ≤ now := by exact_mod_cast h
  linarith

/-! ## What a step does -/

namespace Loader

theorem load_of_not_begins {cfg : Config} {s : Loader κ} {now : ℕ} (h : s.begins cfg now = false)
    (thrown : Option LoadError) : (s.load cfg now thrown).1 = s := by
  rw [begins] at h
  rw [load]
  cases hfresh : s.fresh cfg now with
  | some jwks => rfl
  | none =>
    cases hcooling : s.cooling cfg now with
    | some jwks => rfl
    | none =>
      cases hinflight : s.inflight with
      | some id => rfl
      | none =>
        rw [hfresh, hcooling, hinflight] at h
        cases h

theorem load_of_begins {cfg : Config} {s : Loader κ} {now : ℕ} (h : s.begins cfg now = true)
    (thrown : Option LoadError) : s.load cfg now thrown = s.begin cfg now thrown := by
  rw [begins, Bool.and_eq_true, Bool.and_eq_true, Option.isNone_iff_eq_none,
    Option.isNone_iff_eq_none, Option.isNone_iff_eq_none] at h
  rw [load, h.1.1, h.1.2, h.2]

theorem fresh_eq_some {cfg : Config} {s : Loader κ} {now : ℕ} {jwks : κ} :
    s.fresh cfg now = some jwks ↔
      ∃ cache, s.cache = some cache ∧ cache.jwks = jwks ∧ age now cache.fetchedAt < cfg.ttl := by
  rw [fresh]
  cases s.cache with
  | none => simp
  | some cache => simp [and_comm]

theorem cooling_eq_some {cfg : Config} {s : Loader κ} {now : ℕ} {jwks : κ} :
    s.cooling cfg now = some jwks ↔
      ∃ cache, s.cache = some cache ∧ cache.jwks = jwks ∧ 0 < cfg.maxStaleSeconds ∧
        0 < cfg.retryCooldownMs ∧ 0 < s.lastFailedRefreshAt ∧
        age now s.lastFailedRefreshAt < cfg.retryCooldownMs ∧
        age now cache.fetchedAt < cfg.grace := by
  rw [cooling]
  cases s.cache with
  | none => simp
  | some cache => simp [and_comm]

theorem delivered_load {cfg : Config} {s : Loader κ} {now : ℕ} {thrown : Option LoadError}
    (h : s.begins cfg now = false) :
    s.delivered (s.load cfg now thrown).2 =
      match s.fresh cfg now with
      | some jwks => some (.ok jwks)
      | none =>
        match s.cooling cfg now with
        | some jwks => some (.ok jwks)
        | none => s.inflight.bind fun id => s.promises[id]?.join := by
  rw [begins] at h
  rw [load]
  cases hfresh : s.fresh cfg now with
  | some jwks => rfl
  | none =>
    cases hcooling : s.cooling cfg now with
    | some jwks => rfl
    | none =>
      cases hinflight : s.inflight with
      | some id => rfl
      | none =>
        rw [hfresh, hcooling, hinflight] at h
        cases h

theorem join_of_isPending {s : Loader κ} {id : ℕ} (h : s.isPending id = true) :
    s.promises[id]?.join = none := by
  rw [isPending, Option.any_eq_true] at h
  obtain ⟨p, hp, hnone⟩ := h
  rw [hp, Option.isNone_iff_eq_none.mp hnone]
  rfl

theorem running_set {s : Loader κ} {id : ℕ} (h : s.isPending id = true)
    (result : Except LoadError κ) :
    (s.promises.set id (some result)).countP Option.isNone = s.running - 1 := by
  rw [isPending, Option.any_eq_true] at h
  obtain ⟨p, hp, hnone⟩ := h
  obtain ⟨hlt, heq⟩ := List.getElem?_eq_some_iff.mp hp
  rw [List.countP_set hlt, heq, hnone, running]
  simp

end Loader

/-! ## A call -/

section Steps
variable {cfg : Config} {w : World κ}

theorem inv_at (hinv : Inv cfg w) {now : ℕ} (hclock : w.clock ≤ now) :
    Inv cfg { w with clock := now } where
  cache := hinv.cache
  flight := by
    obtain hidle | ⟨id, hinflight, hpending, hrunning, hlate⟩ := hinv.flight
    · exact .inl hidle
    · exact .inr ⟨id, hinflight, hpending, hrunning,
        fun last hlast => (hlate last hlast).trans (age_mono hclock _)⟩
  past := fun failedAt h => (hinv.past failedAt h).trans hclock
  stamped := hinv.stamped
  stamps := hinv.stamps

theorem current_load (hinv : Inv cfg w) {now : ℕ} {thrown : Option LoadError}
    (hbegins : w.loader.begins cfg now = false) {jwks : κ}
    (h : w.loader.delivered (w.loader.load cfg now thrown).2 = some (.ok jwks)) :
    ∃ fetchedAt, w.last = some ⟨jwks, fetchedAt⟩ ∧ (age now fetchedAt < cfg.ttl ∨
      w.failedAt.isSome = true ∧ age now fetchedAt < cfg.grace) := by
  rw [Loader.delivered_load hbegins] at h
  cases hfresh : w.loader.fresh cfg now with
  | some found =>
    rw [hfresh] at h
    obtain rfl : found = jwks := by simpa using h
    obtain ⟨cache, hcache, rfl, hage⟩ := Loader.fresh_eq_some.mp hfresh
    exact ⟨cache.fetchedAt, by rw [← hinv.cache, hcache], .inl hage⟩
  | none =>
    cases hcooling : w.loader.cooling cfg now with
    | some found =>
      rw [hfresh, hcooling] at h
      obtain rfl : found = jwks := by simpa using h
      obtain ⟨cache, hcache, rfl, -, -, hstamp, -, hage⟩ := Loader.cooling_eq_some.mp hcooling
      obtain ⟨failedAt, hfailed, -⟩ := hinv.stamped hstamp
      exact ⟨cache.fetchedAt, by rw [← hinv.cache, hcache], .inr ⟨by rw [hfailed]; rfl, hage⟩⟩
    | none =>
      rw [hfresh, hcooling] at h
      obtain ⟨hinflight, -⟩ | ⟨id, hinflight, hpending, -⟩ := hinv.flight
      · rw [hinflight] at h
        cases h
      · rw [hinflight] at h
        dsimp only [Option.bind_some] at h
        rw [Loader.join_of_isPending hpending] at h
        cases h

theorem cools_load (hinv : Inv cfg w) {now : ℕ} (hclock : w.clock ≤ now) (thrown : Option LoadError)
    {failedAt : ℕ} {last : JwksCacheEntry κ} (hfailed : w.failedAt = some failedAt)
    (hcool : age now failedAt < cfg.retryCooldownMs) (hlast : w.last = some last)
    (hstale : 0 < cfg.maxStaleSeconds) (hgrace : age now last.fetchedAt < cfg.grace) :
    w.loader.begins cfg now = false ∧
      w.loader.delivered (w.loader.load cfg now thrown).2 = some (.ok last.jwks) := by
  have hpast := (hinv.past failedAt hfailed).trans hclock
  obtain ⟨hstamp, hpos⟩ := hinv.stamps failedAt last hfailed hlast hstale
    (lt_of_le_of_lt (age_mono hpast _) hgrace)
  have hcache : w.loader.cache = some last := by rw [hinv.cache, hlast]
  have hcooling : w.loader.cooling cfg now = some last.jwks :=
    Loader.cooling_eq_some.mpr ⟨last, hcache, rfl, hstale,
      lt_of_le_of_lt (age_nonneg hpast) hcool, by rw [hstamp]; exact hpos, by rwa [hstamp], hgrace⟩
  have hbegins : w.loader.begins cfg now = false := by
    rw [Loader.begins, hcooling, Option.isNone_some, Bool.and_false, Bool.false_and]
  refine ⟨hbegins, ?_⟩
  rw [Loader.delivered_load hbegins, hcooling]
  cases hfresh : w.loader.fresh cfg now with
  | none => rfl
  | some found =>
    obtain ⟨cache, hcache', rfl, -⟩ := Loader.fresh_eq_some.mp hfresh
    rw [hcache] at hcache'
    rw [Option.some.inj hcache']

theorem recovers_load (hinv : Inv cfg w) {now : ℕ} (hidle : w.loader.running = 0)
    (hlate : ∀ last, w.last = some last → cfg.ttl ≤ age now last.fetchedAt)
    (hcool : ∀ failedAt, w.failedAt = some failedAt → cfg.retryCooldownMs ≤ age now failedAt) :
    w.loader.begins cfg now = true := by
  have hinflight : w.loader.inflight = none := by
    obtain ⟨hinflight, -⟩ | ⟨id, -, -, hrunning, -⟩ := hinv.flight
    · exact hinflight
    · omega
  have hfresh : w.loader.fresh cfg now = none := by
    cases hfresh : w.loader.fresh cfg now with
    | none => rfl
    | some jwks =>
      obtain ⟨cache, hcache, -, hage⟩ := Loader.fresh_eq_some.mp hfresh
      exact absurd hage (not_lt.mpr (hlate cache (by rw [← hinv.cache, hcache])))
  have hcooling : w.loader.cooling cfg now = none := by
    cases hcooling : w.loader.cooling cfg now with
    | none => rfl
    | some jwks =>
      obtain ⟨cache, -, -, -, -, hstamp, hage, -⟩ := Loader.cooling_eq_some.mp hcooling
      obtain ⟨failedAt, hfailed, hle⟩ := hinv.stamped hstamp
      exact absurd hage (not_lt.mpr ((hcool failedAt hfailed).trans (age_anti hle now)))
  rw [Loader.begins, hfresh, hcooling, hinflight]
  rfl

theorem Inv.running_le (hinv : Inv cfg w) : w.loader.running ≤ 1 := by
  obtain ⟨-, hrunning⟩ | ⟨_, -, -, hrunning, -⟩ := hinv.flight <;> omega

theorem inv_begin (hinv : Inv cfg w) {now : ℕ} (hclock : w.clock ≤ now)
    (hbegins : w.loader.begins cfg now = true) :
    Inv cfg { w with loader := (w.loader.begin cfg now none).1, clock := now } := by
  rw [Loader.begins, Bool.and_eq_true, Bool.and_eq_true, Option.isNone_iff_eq_none,
    Option.isNone_iff_eq_none, Option.isNone_iff_eq_none] at hbegins
  obtain ⟨⟨hfresh, -⟩, hinflight⟩ := hbegins
  have hidle : w.loader.running = 0 := by
    obtain ⟨-, hidle⟩ | ⟨id, hid, -⟩ := hinv.flight
    · exact hidle
    · rw [hinflight] at hid
      cases hid
  refine ⟨hinv.cache, .inr ⟨w.loader.promises.length, rfl, ?_, ?_, ?_⟩,
    fun failedAt h => (hinv.past failedAt h).trans hclock, hinv.stamped, hinv.stamps⟩
  · simp [Loader.isPending, Loader.begin]
  · rw [Loader.running] at hidle ⊢
    simp [Loader.begin, List.countP_append, hidle]
  · intro last hlast
    by_contra hlt
    rw [not_le] at hlt
    have hcache : w.loader.cache = some last := by rw [hinv.cache]; exact hlast
    have hsome := Loader.fresh_eq_some.mpr ⟨last, hcache, rfl, hlt⟩
    rw [hfresh] at hsome
    cases hsome

theorem load_step (hinv : Inv cfg w) {now : ℕ} {thrown : Option LoadError} {w' : World κ}
    {out : Output κ} (hno : NoThrow cfg w (.load now thrown))
    (h : stepOut cfg w (.load now thrown) = some (w', out)) :
    Inv cfg w' ∧ Sound cfg w (.load now thrown) w' out := by
  rw [stepOut] at h
  split at h
  · rename_i hclock
    obtain ⟨rfl, rfl⟩ := Prod.mk.inj (Option.some.inj h)
    cases hbegins : w.loader.begins cfg now with
    | false =>
      have hloader := Loader.load_of_not_begins hbegins thrown
      have hat := inv_at hinv hclock
      simp only [hloader, Bool.false_and, Bool.false_eq_true, if_false]
      refine ⟨hat, hinv.running_le, fun jwks => current_load hinv hbegins, ?_, ?_, ?_⟩
      · rintro _ _ _ _ ⟨⟩
      · rintro _ _ failedAt last ⟨⟩ hfailed hcool hlast hstale hgrace
        exact ⟨rfl, (cools_load hinv hclock thrown hfailed hcool hlast hstale hgrace).2⟩
      · rintro _ _ ⟨⟩ hidle hlate hcool
        rw [recovers_load hinv hidle hlate hcool] at hbegins
        cases hbegins
    | true =>
      cases thrown with
      | some err =>
        rw [NoThrow, hbegins] at hno
        cases hno
      | none =>
        have hload := Loader.load_of_begins hbegins none
        have hbegun := inv_begin hinv hclock hbegins
        simp only [hload, Option.isSome_none, Bool.and_false, Bool.false_eq_true, if_false]
        refine ⟨hbegun, hbegun.running_le, ?_, ?_, ?_, fun _ _ _ _ _ _ => rfl⟩
        · intro jwks hjwks
          simp [Loader.begin, Loader.delivered] at hjwks
        · rintro _ _ _ _ ⟨⟩
        · rintro _ _ failedAt last ⟨⟩ hfailed hcool hlast hstale hgrace
          have hserved := (cools_load hinv hclock none hfailed hcool hlast hstale hgrace).1
          rw [hbegins] at hserved
          cases hserved
  · cases h

/-! ## The end of a fetch -/

theorem Loader.running_pos {s : Loader κ} {id : ℕ} (h : s.isPending id = true) : 0 < s.running := by
  rw [isPending, Option.any_eq_true] at h
  obtain ⟨p, hp, hnone⟩ := h
  exact List.countP_pos_iff.mpr ⟨p, List.mem_of_getElem? hp, hnone⟩

theorem Loader.finish_error (cfg : Config) (s : Loader κ) (now : ℕ) (err : LoadError) :
    (∃ cache, s.cache = some cache ∧ 0 < cfg.maxStaleSeconds ∧ age now cache.fetchedAt < cfg.grace ∧
        s.finish cfg now (.error err) =
          ({ s with lastFailedRefreshAt := now, inflight := none }, .ok cache.jwks)) ∨
      (∀ cache, s.cache = some cache → 0 < cfg.maxStaleSeconds →
          cfg.grace ≤ age now cache.fetchedAt) ∧
        s.finish cfg now (.error err) = ({ s with inflight := none }, .error err) := by
  rw [finish]
  cases hcache : s.cache with
  | none => exact .inr ⟨by rintro _ ⟨⟩, rfl⟩
  | some cache =>
    dsimp only
    split
    · rename_i hserved
      exact .inl ⟨cache, rfl, hserved.1, hserved.2, rfl⟩
    · rename_i hserved
      refine .inr ⟨?_, rfl⟩
      rintro _ ⟨⟩ hstale
      exact not_lt.mp fun hlt => hserved ⟨hstale, hlt⟩

theorem settle_step (httl : 0 < cfg.ttlSeconds) (hinv : Inv cfg w) {now id : ℕ}
    {result : Option (Response κ)} {w' : World κ} {out : Output κ}
    (h : stepOut cfg w (.settle now id result) = some (w', out)) :
    Inv cfg w' ∧ Sound cfg w (.settle now id result) w' out := by
  have hpos : 0 < cfg.ttl := by
    rw [Config.ttl]
    linarith
  rw [stepOut] at h
  split at h
  · rename_i hguard
    obtain ⟨hclock, hpending⟩ := hguard
    have hrunning := hinv.running_le
    have hset : ∀ result, (w.loader.promises.set id (some result)).countP Option.isNone = 0 :=
      fun result => by rw [Loader.running_set hpending result]; omega
    have hlate : ∀ last, w.last = some last → cfg.ttl ≤ age now last.fetchedAt := by
      obtain ⟨-, hidle⟩ | ⟨_, -, -, -, hlate⟩ := hinv.flight
      · exact absurd hidle (Nat.ne_of_gt (Loader.running_pos hpending))
      · exact fun last hlast => (hlate last hlast).trans (age_mono hclock _)
    cases hread : readJwks result with
    | ok jwks =>
      rw [hread] at h
      obtain ⟨rfl, rfl⟩ := Prod.mk.inj (Option.some.inj h)
      rw [Loader.settle, hread, Loader.finish]
      refine ⟨⟨rfl, .inl ⟨rfl, hset _⟩, ?_, fun hstamp => absurd hstamp (Nat.lt_irrefl 0), ?_⟩,
        (hset _).le.trans (Nat.zero_le 1), ?_, ?_, ?_, ?_⟩
      · rintro _ ⟨⟩
      · rintro _ _ ⟨⟩
      · intro jwks' hjwks
        obtain rfl : jwks = jwks' := by simpa using hjwks
        refine ⟨now, rfl, .inl ?_⟩
        rw [age, sub_self]
        exact hpos
      · rintro _ _ _ err ⟨⟩ herr
        rw [hread] at herr
        cases herr
      · rintro _ _ _ _ ⟨⟩
      · rintro _ _ ⟨⟩
    | error err =>
      rw [hread] at h
      obtain ⟨rfl, rfl⟩ := Prod.mk.inj (Option.some.inj h)
      rw [Loader.settle, hread]
      obtain ⟨cache, hcache, hstale, hgrace, hfinish⟩ | ⟨hgone, hfinish⟩ :=
        Loader.finish_error cfg w.loader now err
      · have hlast : w.last = some cache := by rw [← hinv.cache, hcache]
        have hnow : 0 < now := by
          have hage := hlate cache hlast
          rw [age] at hage
          have hfetched : (0 : ℚ) ≤ cache.fetchedAt := Nat.cast_nonneg _
          have hcast : (0 : ℚ) < now := by linarith
          exact_mod_cast hcast
        rw [hfinish]
        refine ⟨⟨hinv.cache, .inl ⟨rfl, hset _⟩, ?_, fun _ => ⟨now, rfl, Nat.le_refl now⟩, ?_⟩,
          (hset _).le.trans (Nat.zero_le 1), ?_, ?_, ?_, ?_⟩
        · rintro _ ⟨⟩
          exact Nat.le_refl now
        · rintro _ _ ⟨⟩ - - -
          exact ⟨rfl, hnow⟩
        · intro jwks hjwks
          obtain rfl : cache.jwks = jwks := by simpa using hjwks
          exact ⟨cache.fetchedAt, hlast, .inr ⟨rfl, hgrace⟩⟩
        · rintro _ _ _ _ ⟨⟩ - hpast
          exact absurd hgrace (not_lt.mpr (hpast cache hlast))
        · rintro _ _ _ _ ⟨⟩
        · rintro _ _ ⟨⟩
      · rw [hfinish]
        refine ⟨⟨hinv.cache, .inl ⟨rfl, hset _⟩, ?_, ?_, ?_⟩, (hset _).le.trans (Nat.zero_le 1), ?_, ?_,
          ?_, ?_⟩
        · rintro _ ⟨⟩
          exact Nat.le_refl now
        · intro hstamp
          obtain ⟨failedAt, hfailed, hle⟩ := hinv.stamped hstamp
          exact ⟨now, rfl, hle.trans ((hinv.past failedAt hfailed).trans hclock)⟩
        · rintro _ last ⟨⟩ hlast hstale hgrace
          exact absurd hgrace (not_lt.mpr (hgone last (by rw [hinv.cache]; exact hlast) hstale))
        · rintro jwks ⟨⟩
        · rintro _ _ _ err' ⟨⟩ herr -
          rw [hread] at herr
          rw [Except.error.inj herr]
        · rintro _ _ _ _ ⟨⟩
        · rintro _ _ ⟨⟩
  · cases h

theorem sound_step (httl : 0 < cfg.ttlSeconds) (hinv : Inv cfg w) {e : Event κ} {w' : World κ}
    {out : Output κ} (hno : NoThrow cfg w e) (h : stepOut cfg w e = some (w', out)) :
    Inv cfg w' ∧ Sound cfg w e w' out := by
  cases e with
  | load now thrown => exact load_step hinv hno h
  | settle now id result => exact settle_step httl hinv h

end Steps

/-- **The loader is sound in every run** of calls and settlements in which no fetch throws before it
gives a promise, for a positive time to live. -/
theorem loader_sound {cfg : Config} (httl : 0 < cfg.ttlSeconds) {events : List (Event κ)}
    (hno : AllSteps (step cfg) (NoThrow cfg) World.start events) :
    AllSteps (step cfg) (SoundStep cfg) World.start events := by
  refine allSteps_of_invariant ?_ ?_ (inv_start cfg) hno
  · intro w e w' hquiet hinv hstep
    obtain ⟨⟨_, out⟩, hout, rfl⟩ := Option.map_eq_some_iff.mp hstep
    exact (sound_step httl hinv hquiet hout).1
  · intro w e hquiet hinv w' out hout
    exact (sound_step httl hinv hquiet hout).2

/-! ## A fetch that throws -/

/-! ## Runs of the loader -/

def brief : Config := ⟨1 / 1000, 1 / 1000⟩

def outage : List (Event ℕ) :=
  [.load 1 none, .settle 1 0 (some ⟨true, 200, .json (some 7)⟩), .load 2 none, .settle 2 1 none,
    .load 2 none]

theorem loader_sound_outage : AllSteps (step brief) (SoundStep brief) World.start outage :=
  loader_sound (by rw [brief]; norm_num) (by
    rw [outage]
    decide +kernel)

def thrownFirst : List (Event ℕ) := [.load 1 (some .fetch)]

def thrownRefresh : List (Event ℕ) :=
  [.load 1 none, .settle 1 0 (some ⟨true, 200, .json (some 7)⟩), .load 2 (some .fetch)]

/-- After the first fetch has thrown, a call long after it starts none; after the refresh has thrown,
the old key set is handed over past the grace. -/
theorem throw_unsound :
    ¬ AllSteps (step brief) (SoundStep brief) World.start (thrownFirst ++ [.load 5 none]) ∧
      ¬ AllSteps (step brief) (SoundStep brief) World.start (thrownRefresh ++ [.load 5 none]) := by
  constructor
  · intro hall
    have hrun : (run (step brief) World.start thrownFirst).any (fun w => w.last = none &&
        w.loader.running = 0 && w.failedAt = some 1 &&
        (stepOut brief w (.load 5 none)).any fun r => !r.2.started) = true := by decide +kernel
    obtain ⟨w, hw, hfacts⟩ := (Option.any_eq_true _ _).mp hrun
    simp only [Bool.and_eq_true, decide_eq_true_eq, Option.any_eq_true, Bool.not_eq_true'] at hfacts
    obtain ⟨⟨⟨hlast, hidle⟩, hfailed⟩, ⟨w', out⟩, hout, hstarted⟩ := hfacts
    have hsound := allSteps_last hall hw w' out hout
    have hstart := hsound.recovers 5 none rfl hidle (by simp [hlast]) (by
      rintro failedAt h
      rw [hfailed] at h
      cases h
      decide +kernel)
    rw [hstarted] at hstart
    cases hstart
  · intro hall
    have hrun : (run (step brief) World.start thrownRefresh).any (fun w =>
        (stepOut brief w (.load 5 none)).any fun r => r.1.last = some ⟨7, 1⟩ && r.1.clock = 5 &&
          r.2.delivered = some (.ok 7)) = true := by decide +kernel
    obtain ⟨w, hw, hfacts⟩ := (Option.any_eq_true _ _).mp hrun
    simp only [Bool.and_eq_true, decide_eq_true_eq, Option.any_eq_true] at hfacts
    obtain ⟨⟨w', out⟩, hout, ⟨hlast, hclock⟩, hdelivered⟩ := hfacts
    obtain ⟨fetchedAt, hcurrent, hage⟩ := (allSteps_last hall hw w' out hout).current 7 hdelivered
    rw [hlast] at hcurrent
    cases hcurrent
    rw [hclock] at hage
    obtain hage | ⟨-, hage⟩ := hage
    · revert hage
      decide +kernel
    · revert hage
      decide +kernel

end Daloy.Jwk
