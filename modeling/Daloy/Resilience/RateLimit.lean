import Daloy.Foundations.JsMap
import Daloy.Foundations.Runs
import Daloy.Foundations.Unicode
import Mathlib.Algebra.Order.Ring.Int

/-! # The in-memory rate limiter

`MemoryStore` and the `enforce` hook of `rateLimit` in `src/middleware.ts`.

* `budget_admitted`: when the first `max` requests of every window, and no others, are admitted.
* `both_refused`: two requests that interleave, of which a limit of one admits none.

Bucket objects are numbered as they are made, requests as they hit. A request hits in one step, and
reads what the store has returned in another, `resume`.
-/

namespace Daloy.Resilience
set_option autoImplicit false

open Daloy.Runs Daloy.Unicode

/-- `RateLimitOptions`, as the factory checks them. -/
structure RateLimitOptions where
  windowMs : ℕ
  max : ℕ
  retryAfter : Bool := true
  legacyHeaders : Bool := true
  standardHeaders : Bool := false
  windowMs_pos : 0 < windowMs

namespace RateLimit

/-! ## `MemoryStore` -/

structure Bucket where
  count : ℕ
  resetMs : ℤ
  deriving DecidableEq, Repr

def Bucket.increment (b : Bucket) : Bucket := { b with count := b.count + 1 }

/-- All bucket objects that were made, and those the map holds. -/
structure MemoryStore where
  objects : List Bucket := []
  buckets : JsMap JsString ℕ := ∅

namespace MemoryStore

def live? (store : MemoryStore) (key : JsString) (now : ℤ) : Option ℕ := do
  let id ← store.buckets.get? key
  let b ← store.objects[id]?
  if b.resetMs ≤ now then none else some id

def expired (objects : List Bucket) (now : ℤ) (id : ℕ) : Bool :=
  objects[id]?.any (·.resetMs ≤ now)

def hit (store : MemoryStore) (key : JsString) (windowMs : ℕ) (now : ℤ) : MemoryStore × ℕ :=
  match store.live? key now with
  | some id => ({ store with objects := store.objects.modify id Bucket.increment }, id)
  | none =>
    let objects := store.objects ++ [{ count := 1, resetMs := now + windowMs }]
    let buckets := store.buckets.set key store.objects.length
    -- the opportunistic cleanup
    let buckets := if 10000 < buckets.size then buckets.keep fun _ id => !expired objects now id
      else buckets
    ({ objects, buckets }, store.objects.length)

end MemoryStore

/-! ## `enforce` -/

structure LegacyHeaders where
  limit : ℕ
  remaining : ℕ
  reset : ℤ
  deriving DecidableEq, Repr

/-- The numbers of the `ratelimit-policy` and `ratelimit` headers. -/
structure StandardHeaders where
  quota : ℕ
  window : ℤ
  remaining : ℕ
  resetIn : ℤ
  deriving DecidableEq, Repr

/-- What `enforce` sets, and the `retry-after` of the error it throws. -/
structure Outcome where
  legacy : Option LegacyHeaders
  standard : Option StandardHeaders
  tooMany : Option (Option ℤ)
  deriving DecidableEq, Repr

def Outcome.admitted (outcome : Outcome) : Bool := outcome.tooMany.isNone

/-- `Math.ceil(ms / 1000)`. -/
def seconds (ms : ℤ) : ℤ := -(-ms / 1000)

/-- `enforce` behind its `await`. -/
def enforce (opts : RateLimitOptions) (b : Bucket) (now : ℤ) : Outcome where
  legacy := if opts.legacyHeaders then some ⟨opts.max, opts.max - b.count, seconds b.resetMs⟩ else none
  standard := if opts.standardHeaders then
      some ⟨opts.max, seconds opts.windowMs, opts.max - b.count, max 0 (seconds (b.resetMs - now))⟩
    else none
  tooMany := if opts.max < b.count then
      some (if opts.retryAfter then some (max 0 (seconds (b.resetMs - now))) else none)
    else none

/-! ## Requests in flight -/

/-- The bucket each request has hit, in the order of the hits, and what `enforce` made of it. -/
structure Limiter where
  store : MemoryStore := {}
  hits : List ℕ := []
  outcomes : List (ℕ × Outcome) := []

inductive Event
  | hit (key : JsString) (now : ℤ)
  | resume (request : ℕ) (now : ℤ)

def Limiter.settled (s : Limiter) (request : ℕ) : Prop := request ∈ s.outcomes.map Prod.fst

instance (s : Limiter) (request : ℕ) : Decidable (s.settled request) :=
  inferInstanceAs (Decidable (_ ∈ _))

def step (opts : RateLimitOptions) (s : Limiter) : Event → Option Limiter
  | .hit key now =>
    let (store, id) := s.store.hit key opts.windowMs now
    some { s with store, hits := s.hits ++ [id] }
  | .resume request now =>
    if s.settled request then none
    else do
      let id ← s.hits[request]?
      let b ← s.store.objects[id]?
      some { s with outcomes := s.outcomes ++ [(request, enforce opts b now)] }

def ordinal (hits : List ℕ) (request : ℕ) : ℕ :=
  match hits[request]? with
  | some id => (hits.take (request + 1)).count id
  | none => 0

/-- The first `max` requests of a window are admitted, and all others get 429. -/
def AdmitsBudget (opts : RateLimitOptions) (s : Limiter) : Prop :=
  ∀ request outcome, (request, outcome) ∈ s.outcomes →
    (outcome.admitted = true ↔ ordinal s.hits request ≤ opts.max)

/-- When a hit takes a window past `max`, every earlier request of the window has resumed. -/
def Timely (opts : RateLimitOptions) (s : Limiter) : Event → Prop
  | .hit key now => ∀ id b, s.store.live? key now = some id → s.store.objects[id]? = some b →
      b.count = opts.max → ∀ request, s.hits[request]? = some id → s.settled request
  | .resume _ _ => True

def Finished (s : Limiter) : Prop := ∀ request < s.hits.length, s.settled request

/-! ## Hits -/

section Hits

theorem live?_eq_some {store : MemoryStore} {key : JsString} {now : ℤ} {id : ℕ}
    (h : store.live? key now = some id) : ∃ b, store.objects[id]? = some b := by
  obtain ⟨id', -, h⟩ := Option.bind_eq_some_iff.mp h
  obtain ⟨b, hb, h⟩ := Option.bind_eq_some_iff.mp h
  split at h
  · simp at h
  · obtain rfl : id' = id := Option.some.inj h
    exact ⟨b, hb⟩

theorem hit_cases (store : MemoryStore) (key : JsString) (windowMs : ℕ) (now : ℤ) :
    (∃ id b, store.live? key now = some id ∧ store.objects[id]? = some b ∧
      (store.hit key windowMs now).2 = id ∧
      (store.hit key windowMs now).1.objects = store.objects.modify id Bucket.increment) ∨
    (store.live? key now = none ∧ (store.hit key windowMs now).2 = store.objects.length ∧
      (store.hit key windowMs now).1.objects =
        store.objects ++ [{ count := 1, resetMs := now + windowMs }]) := by
  rw [MemoryStore.hit]
  cases hlive : store.live? key now with
  | none => exact .inr ⟨rfl, rfl, rfl⟩
  | some id =>
    obtain ⟨b, hb⟩ := live?_eq_some hlive
    exact .inl ⟨id, b, rfl, hb, rfl, rfl⟩

theorem ordinal_of_hit {hits : List ℕ} {request id : ℕ} (h : hits[request]? = some id) :
    ordinal hits request = (hits.take (request + 1)).count id := by
  rw [ordinal, h]

theorem ordinal_append {hits : List ℕ} {request : ℕ} (h : request < hits.length) (id : ℕ) :
    ordinal (hits ++ [id]) request = ordinal hits request := by
  rw [ordinal, ordinal, List.getElem?_append_left h, List.take_append_of_le_length (by omega)]

theorem ordinal_last (hits : List ℕ) (id : ℕ) :
    ordinal (hits ++ [id]) hits.length = hits.count id + 1 := by
  rw [ordinal_of_hit (List.getElem?_concat_length ..), List.take_of_length_le (by simp),
    List.count_append, List.count_singleton_self]

theorem ordinal_le_count {hits : List ℕ} {request id : ℕ} (h : hits[request]? = some id) :
    ordinal hits request ≤ hits.count id := by
  rw [ordinal_of_hit h]
  exact (List.take_sublist _ hits).count_le id

theorem admitted_enforce (opts : RateLimitOptions) (b : Bucket) (now : ℤ) :
    (enforce opts b now).admitted = true ↔ b.count ≤ opts.max := by
  rw [Outcome.admitted, enforce]
  by_cases h : opts.max < b.count
  · rw [if_pos h]
    simpa using h
  · rw [if_neg h]
    simpa using h

end Hits

/-! ## The invariant -/

/-- The count of an object is the number of hits on it. -/
structure Counted (s : Limiter) : Prop where
  counts : ∀ id b, s.store.objects[id]? = some b → b.count = s.hits.count id
  bound : ∀ id ∈ s.hits, id < s.store.objects.length
  known : ∀ request, s.settled request → request < s.hits.length

/-- In a window that is past `max`, the first `max` requests have resumed. -/
def Resumed (opts : RateLimitOptions) (s : Limiter) : Prop :=
  ∀ request id, s.hits[request]? = some id → opts.max < s.hits.count id →
    ordinal s.hits request ≤ opts.max → s.settled request

theorem counted_init : Counted {} := by
  refine ⟨?_, ?_, ?_⟩
  · intro id b h
    simp at h
  · simp
  · intro request h
    simp [Limiter.settled] at h

theorem step_cases {opts : RateLimitOptions} {s s' : Limiter} {e : Event}
    (h : step opts s e = some s') :
    (∃ key now, e = .hit key now ∧ s'.store = (s.store.hit key opts.windowMs now).1 ∧
      s'.hits = s.hits ++ [(s.store.hit key opts.windowMs now).2] ∧ s'.outcomes = s.outcomes) ∨
    (∃ request now id b, e = .resume request now ∧ ¬s.settled request ∧
      s.hits[request]? = some id ∧ s.store.objects[id]? = some b ∧ s'.store = s.store ∧
      s'.hits = s.hits ∧ s'.outcomes = s.outcomes ++ [(request, enforce opts b now)]) := by
  cases e with
  | hit key now =>
    obtain rfl := Option.some.inj h
    exact .inl ⟨key, now, rfl, rfl, rfl, rfl⟩
  | resume request now =>
    rw [step] at h
    split at h
    · simp at h
    · next hwaiting =>
      obtain ⟨id, hid, h⟩ := Option.bind_eq_some_iff.mp h
      obtain ⟨b, hb, h⟩ := Option.bind_eq_some_iff.mp h
      obtain rfl := Option.some.inj h
      exact .inr ⟨request, now, id, b, rfl, hwaiting, hid, hb, rfl, rfl, rfl⟩

theorem counted_step {opts : RateLimitOptions} {s s' : Limiter} {e : Event} (hs : Counted s)
    (h : step opts s e = some s') : Counted s' := by
  rcases step_cases h with ⟨key, now, -, hstore, hhits, houtcomes⟩ |
    ⟨request, now, id, b, -, -, hid, -, hstore, hhits, houtcomes⟩
  · have hknown : ∀ request, s'.settled request → request < s'.hits.length := by
      intro request hsettled
      rw [Limiter.settled, houtcomes] at hsettled
      rw [hhits, List.length_append]
      exact Nat.lt_succ_of_lt (hs.known request hsettled)
    rcases hit_cases s.store key opts.windowMs now with ⟨id, b, -, hb, hid, hobjects⟩ |
      ⟨-, hid, hobjects⟩
    · rw [hid] at hhits
      refine ⟨?_, ?_, hknown⟩
      · intro id' b' hb'
        rw [hstore, hobjects, List.getElem?_modify] at hb'
        obtain ⟨b'', hb'', rfl⟩ := Option.map_eq_some_iff.mp hb'
        rw [hhits, List.count_append, List.count_singleton, ← hs.counts id' b'' hb'']
        by_cases heq : id = id'
        · simp [heq, Bucket.increment]
        · simp [heq]
      · intro id' hmem
        rw [hstore, hobjects, List.length_modify]
        rw [hhits, List.mem_append, List.mem_singleton] at hmem
        rcases hmem with hmem | rfl
        · exact hs.bound id' hmem
        · exact (List.getElem?_eq_some_iff.mp hb).1
    · rw [hid] at hhits
      have hnew : s.hits.count s.store.objects.length = 0 := by
        rw [List.count_eq_zero]
        exact fun hmem => Nat.lt_irrefl _ (hs.bound _ hmem)
      refine ⟨?_, ?_, hknown⟩
      · intro id' b' hb'
        rw [hstore, hobjects] at hb'
        rw [hhits, List.count_append, List.count_singleton]
        obtain hold | ⟨rfl, rfl⟩ := getElem?_concat.mp hb'
        · have hlt := (List.getElem?_eq_some_iff.mp hold).1
          rw [hs.counts id' b' hold]
          simp [Nat.ne_of_gt hlt]
        · simp [hnew]
      · intro id' hmem
        rw [hstore, hobjects, List.length_append, List.length_singleton]
        rw [hhits, List.mem_append, List.mem_singleton] at hmem
        rcases hmem with hmem | rfl
        · exact Nat.lt_succ_of_lt (hs.bound id' hmem)
        · exact Nat.lt_succ_self _
  · refine ⟨?_, ?_, ?_⟩
    · rw [hstore, hhits]
      exact hs.counts
    · rw [hstore, hhits]
      exact hs.bound
    · intro request' hsettled
      rw [Limiter.settled, houtcomes, List.map_append, List.mem_append] at hsettled
      rw [hhits]
      rcases hsettled with hsettled | hsettled
      · exact hs.known request' hsettled
      · obtain rfl : request' = request := by simpa using hsettled
        exact (List.getElem?_eq_some_iff.mp hid).1

/-- A hit whose window is past `max` meets the condition, or is on a window past `max` before. -/
theorem resumed_step {opts : RateLimitOptions} {s s' : Limiter} {e : Event} (hs : Counted s)
    (hresumed : Resumed opts s) (htimely : Timely opts s e) (h : step opts s e = some s') :
    Resumed opts s' := by
  intro request id hhit hpast hordinal
  rcases step_cases h with ⟨key, now, rfl, -, hhits, houtcomes⟩ |
    ⟨request', now, id', b, -, -, -, -, -, hhits, houtcomes⟩
  · rw [Limiter.settled, houtcomes]
    by_cases hlt : request < s.hits.length
    · rw [hhits, List.getElem?_append_left hlt] at hhit
      rw [hhits, ordinal_append hlt] at hordinal
      rw [hhits, List.count_append, List.count_singleton] at hpast
      by_cases hold : opts.max < s.hits.count id
      · exact hresumed request id hhit hold hordinal
      · -- this hit takes the window past `max`
        rcases hit_cases s.store key opts.windowMs now with ⟨id', b, hlive, hb, hid, -⟩ |
          ⟨-, hid, -⟩
        · rw [hid] at hpast
          obtain rfl : id' = id := by
            by_contra hne
            simp [hne] at hpast
            omega
          apply htimely id' b hlive hb ?_ request hhit
          rw [hs.counts id' b hb]
          simp at hpast
          omega
        · rw [hid] at hpast
          have hne : s.store.objects.length ≠ id :=
            Nat.ne_of_gt (hs.bound id (List.mem_of_getElem? hhit))
          simp [hne] at hpast
          omega
    · -- the request of this hit
      have hlen := (List.getElem?_eq_some_iff.mp hhit).1
      rw [hhits, List.length_append, List.length_singleton] at hlen
      obtain rfl : request = s.hits.length := by omega
      rw [hhits, List.getElem?_concat_length] at hhit
      rw [hhits, ← Option.some.inj hhit, List.count_append, List.count_singleton_self] at hpast
      rw [hhits, ordinal_last] at hordinal
      omega
  · rw [hhits] at hhit hpast hordinal
    rw [Limiter.settled, houtcomes, List.map_append]
    exact List.mem_append_left _ (hresumed request id hhit hpast hordinal)

theorem admits_step {opts : RateLimitOptions} {s s' : Limiter} {e : Event} (hs : Counted s)
    (hresumed : Resumed opts s) (hadmits : AdmitsBudget opts s) (h : step opts s e = some s') :
    AdmitsBudget opts s' := by
  intro request outcome hmem
  rcases step_cases h with ⟨key, now, -, -, hhits, houtcomes⟩ |
    ⟨request', now, id, b, -, hwaiting, hid, hb, -, hhits, houtcomes⟩
  · rw [houtcomes] at hmem
    have hlt := hs.known request (List.mem_map_of_mem hmem)
    rw [hhits, ordinal_append hlt]
    exact hadmits request outcome hmem
  · rw [houtcomes, List.mem_append, List.mem_singleton] at hmem
    rw [hhits]
    rcases hmem with hmem | heq
    · exact hadmits request outcome hmem
    · obtain ⟨rfl, rfl⟩ := Prod.mk.inj heq
      rw [admitted_enforce, hs.counts id b hb]
      constructor
      · intro hle
        exact Nat.le_trans (ordinal_le_count hid) hle
      · intro hle
        by_contra hpast
        exact hwaiting (hresumed request id hid (Nat.lt_of_not_le hpast) hle)

/-! ## A hit that comes too early -/

/-- A request among the first `max` whose window is past `max`, and which was not admitted. -/
def Cheated (opts : RateLimitOptions) (s : Limiter) : Prop :=
  ∃ request id, s.hits[request]? = some id ∧ opts.max < s.hits.count id ∧
    ordinal s.hits request ≤ opts.max ∧
    ∀ outcome, (request, outcome) ∈ s.outcomes → outcome.admitted = false

theorem cheated_of_early {opts : RateLimitOptions} {s s' : Limiter} {e : Event} (hs : Counted s)
    (hearly : ¬Timely opts s e) (h : step opts s e = some s') : Cheated opts s' := by
  rcases step_cases h with ⟨key, now, rfl, -, hhits, houtcomes⟩ | ⟨_, _, _, _, rfl, -⟩
  · simp only [Timely, not_forall] at hearly
    obtain ⟨id, b, hlive, hb, hcount, request, hhit, hwaiting⟩ := hearly
    rcases hit_cases s.store key opts.windowMs now with ⟨id', b', hlive', -, hid, -⟩ |
      ⟨hnone, -, -⟩
    · obtain rfl : id' = id := Option.some.inj (hlive'.symm.trans hlive)
      have hlt := (List.getElem?_eq_some_iff.mp hhit).1
      have hfull : s.hits.count id' = opts.max := (hs.counts id' b hb).symm.trans hcount
      rw [hid] at hhits
      refine ⟨request, id', ?_, ?_, ?_, ?_⟩
      · rw [hhits, List.getElem?_append_left hlt]
        exact hhit
      · rw [hhits, List.count_append, List.count_singleton_self, hfull]
        exact Nat.lt_succ_self _
      · rw [hhits, ordinal_append hlt, ← hfull]
        exact ordinal_le_count hhit
      · intro outcome hmem
        rw [houtcomes] at hmem
        exact absurd (List.mem_map_of_mem hmem) hwaiting
    · rw [hnone] at hlive
      simp at hlive
  · exact absurd trivial hearly

theorem cheated_step {opts : RateLimitOptions} {s s' : Limiter} {e : Event} (hs : Counted s)
    (hcheated : Cheated opts s) (h : step opts s e = some s') : Cheated opts s' := by
  obtain ⟨request, id, hhit, hpast, hordinal, hrefused⟩ := hcheated
  rcases step_cases h with ⟨key, now, -, -, hhits, houtcomes⟩ |
    ⟨request', now, id', b, -, -, hid, hb, -, hhits, houtcomes⟩
  · have hlt := (List.getElem?_eq_some_iff.mp hhit).1
    refine ⟨request, id, ?_, ?_, ?_, by rw [houtcomes]; exact hrefused⟩
    · rw [hhits, List.getElem?_append_left hlt]
      exact hhit
    · rw [hhits, List.count_append]
      exact Nat.lt_add_right _ hpast
    · rw [hhits, ordinal_append hlt]
      exact hordinal
  · refine ⟨request, id, by rw [hhits]; exact hhit, by rw [hhits]; exact hpast,
      by rw [hhits]; exact hordinal, ?_⟩
    intro outcome hmem
    rw [houtcomes, List.mem_append, List.mem_singleton] at hmem
    rcases hmem with hmem | heq
    · exact hrefused outcome hmem
    · obtain ⟨rfl, rfl⟩ := Prod.mk.inj heq
      obtain rfl : id' = id := Option.some.inj (hid.symm.trans hhit)
      rw [← Bool.not_eq_true, admitted_enforce, hs.counts id' b hb]
      exact Nat.not_le_of_lt hpast

theorem not_admits_of_cheated {opts : RateLimitOptions} {s : Limiter} (hcheated : Cheated opts s)
    (hfinished : Finished s) : ¬AdmitsBudget opts s := by
  obtain ⟨request, id, hhit, -, hordinal, hrefused⟩ := hcheated
  obtain ⟨⟨request', outcome⟩, hmem, heq⟩ :=
    List.mem_map.mp (hfinished request (List.getElem?_eq_some_iff.mp hhit).1)
  obtain rfl : request' = request := heq
  intro hadmits
  have hadmitted := (hadmits _ outcome hmem).mpr hordinal
  rw [hrefused outcome hmem] at hadmitted
  exact Bool.false_ne_true hadmitted

/-! ## Runs -/

/-- What a timely step preserves. -/
structure Sound (opts : RateLimitOptions) (s : Limiter) : Prop where
  counted : Counted s
  resumed : Resumed opts s
  admits : AdmitsBudget opts s

theorem sound_init (opts : RateLimitOptions) : Sound opts {} := by
  refine ⟨counted_init, ?_, ?_⟩
  · intro request id hhit
    simp at hhit
  · intro request outcome hmem
    simp at hmem

theorem sound_step {opts : RateLimitOptions} (s : Limiter) (e : Event) (s' : Limiter)
    (htimely : Timely opts s e) (hs : Sound opts s) (h : step opts s e = some s') :
    Sound opts s' where
  counted := counted_step hs.counted h
  resumed := resumed_step hs.counted hs.resumed htimely h
  admits := admits_step hs.counted hs.resumed hs.admits h

theorem admits_of_timely {opts : RateLimitOptions} {events : List Event} {s : Limiter}
    (hrun : run (step opts) {} events = some s)
    (htimely : AllSteps (step opts) (Timely opts) {} events) : AdmitsBudget opts s := by
  have hsound : Sound opts s := run_invariant sound_step (sound_init opts) htimely hrun
  exact hsound.admits

structure Spoiled (opts : RateLimitOptions) (s : Limiter) : Prop where
  counted : Counted s
  cheated : Cheated opts s

theorem spoiled_step {opts : RateLimitOptions} (s : Limiter) (e : Event) (s' : Limiter)
    (hs : Spoiled opts s) (h : step opts s e = some s') : Spoiled opts s' where
  counted := counted_step hs.counted h
  cheated := cheated_step hs.counted hs.cheated h

theorem timely_or_spoiled {opts : RateLimitOptions} {events : List Event} {s t : Limiter}
    (hs : Counted s) (hrun : run (step opts) s events = some t) :
    AllSteps (step opts) (Timely opts) s events ∨ Spoiled opts t := by
  induction events generalizing s with
  | nil => exact .inl trivial
  | cons e events ih =>
    obtain ⟨s', hs', hrest⟩ := run_cons_eq_some.mp hrun
    have hcounted := counted_step hs hs'
    by_cases htimely : Timely opts s e
    · rcases ih hcounted hrest with hall | hspoiled
      · left
        refine ⟨htimely, ?_⟩
        intro s'' hs''
        obtain rfl := Option.some.inj (hs'.symm.trans hs'')
        exact hall
      · exact .inr hspoiled
    · right
      exact run_invariant_all spoiled_step ⟨hcounted, cheated_of_early hs htimely hs'⟩ hrest

/-- **The first `max` requests of every window, and no others, are admitted in a run in which every
hit is timely; where all requests have resumed, in no other run.** -/
theorem budget_admitted (opts : RateLimitOptions) (events : List Event) (s : Limiter)
    (hrun : run (step opts) {} events = some s) :
    (AllSteps (step opts) (Timely opts) {} events → AdmitsBudget opts s) ∧
      (Finished s → AdmitsBudget opts s → AllSteps (step opts) (Timely opts) {} events) := by
  refine ⟨admits_of_timely hrun, ?_⟩
  intro hfinished hadmits
  rcases timely_or_spoiled counted_init hrun with hall | hspoiled
  · exact hall
  · exact absurd hadmits (not_admits_of_cheated hspoiled.cheated hfinished)

def oneEachMinute : RateLimitOptions := { windowMs := 60000, max := 1, windowMs_pos := by decide }

def inTurn : List Event := [.hit [] 0, .resume 0 1, .hit [] 2, .resume 1 3]

/-- Two requests with one key, the second of which hits before the first has resumed. -/
def interleaved : List Event := [.hit [] 0, .hit [] 0, .resume 0 0, .resume 1 0]

/-- The state behind `inTurn`. -/
def afterTurns : Limiter where
  store := { objects := [⟨2, 60000⟩], buckets := (∅ : JsMap JsString ℕ).set [] 0 }
  hits := [0, 0]
  outcomes := [(0, ⟨some ⟨1, 0, 60⟩, none, none⟩), (1, ⟨some ⟨1, 0, 60⟩, none, some (some 60)⟩)]

theorem budget_admitted_example : AdmitsBudget oneEachMinute afterTurns := by
  have hrun : run (step oneEachMinute) {} inTurn = some afterTurns := by rfl
  apply (budget_admitted oneEachMinute inTurn afterTurns hrun).1
  refine ⟨?_, ?_⟩
  · intro id b hlive
    simp [MemoryStore.live?] at hlive
  · intro s hs
    obtain rfl := Option.some.inj hs
    refine ⟨trivial, ?_⟩
    intro s hs
    obtain rfl := Option.some.inj hs
    refine ⟨?_, ?_⟩
    · -- the second hit takes the window past one, and the first request has resumed
      intro id b hlive _ _ request hhit
      cases request with
      | zero => exact List.mem_cons_self
      | succ request => exact absurd hhit (by simp [MemoryStore.hit, MemoryStore.live?])
    · intro s hs
      obtain rfl := Option.some.inj hs
      exact ⟨trivial, fun _ _ => trivial⟩

theorem both_refused : ∃ s, run (step oneEachMinute) {} interleaved = some s ∧
    s.outcomes.map (fun outcome => outcome.2.admitted) = [false, false] ∧
    ¬AdmitsBudget oneEachMinute s := by
  refine ⟨_, rfl, by decide, ?_⟩
  intro hadmits
  have hfirst := (hadmits 0 _ List.mem_cons_self).mpr (by decide)
  exact absurd hfirst (by decide)

end RateLimit

end Daloy.Resilience
