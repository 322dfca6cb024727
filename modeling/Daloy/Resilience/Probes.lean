import Daloy.Foundations.Runs
import Daloy.Resilience.CircuitBreaker
import Mathlib.Algebra.Ring.Int.Defs

/-! # How many probes a half-open breaker has in flight

Calls start and finish in any order around one breaker. A call in flight is known by the half-open
window that admitted it, `none` when the breaker was closed; windows are numbered as they open.

* `Supervised`: the breaker and the calls in flight, `Supervised.step` one start or finish.
-/

namespace Daloy.Resilience
set_option autoImplicit false

open Daloy.Runs

variable {τ : Type}

structure Supervised (τ : Type) where
  breaker : CircuitBreaker τ
  windows : ℕ := 0
  calls : List (Option ℕ) := []
  deriving DecidableEq

/-- A new call asks for admission, or a call in flight ends. -/
inductive CallEvent (τ : Type)
  | start (now : τ)
  | finish (admittedIn : Option ℕ) (how : CallEnd) (now : τ)

namespace Supervised

/-- The number of windows opened, the breaker having gone from `b` to `b'`. -/
def windowsAfter (s : Supervised τ) (b' : CircuitBreaker τ) : ℕ :=
  if s.breaker.state ≠ .halfOpen ∧ b'.state = .halfOpen then s.windows + 1 else s.windows

def probes (s : Supervised τ) : ℕ := s.calls.count (some s.windows)

def Bounded (opts : CircuitBreakerOptions τ) (s : Supervised τ) : Prop :=
  s.breaker.state = .halfOpen → s.probes ≤ opts.halfOpenMaxAttempts

/-- The step does not hand back a slot of the current window for a call of another one: such a call
does not finish, while the half-open breaker counts a probe, by being released or by a success that
leaves the breaker half-open. -/
def Spares (opts : CircuitBreakerOptions τ) (s : Supervised τ) : CallEvent τ → Prop
  | .start _ => True
  | .finish admittedIn how _ =>
    s.breaker.state = .halfOpen → 0 < s.breaker.halfOpenInFlight → admittedIn ≠ some s.windows →
      how ≠ .released ∧
        (how = .outcome true → opts.successThreshold ≤ s.breaker.successCount + 1)

instance (opts : CircuitBreakerOptions τ) (s : Supervised τ) :
    ∀ l, Decidable (Spares opts s l)
  | .start _ => inferInstanceAs (Decidable True)
  | .finish .. => inferInstanceAs (Decidable (_ → _ → _ → _))

/-- The counter of a half-open breaker covers the probes. -/
structure Inv (opts : CircuitBreakerOptions τ) (s : Supervised τ) : Prop where
  counted : s.breaker.state = .halfOpen → s.probes ≤ s.breaker.halfOpenInFlight
  limited : s.breaker.state = .halfOpen → s.breaker.halfOpenInFlight ≤ opts.halfOpenMaxAttempts
  opened : ∀ w, some w ∈ s.calls → w ≤ s.windows

theorem Inv.bounded {opts : CircuitBreakerOptions τ} {s : Supervised τ} (h : Inv opts s) :
    Bounded opts s := by
  intro hs
  exact Nat.le_trans (h.counted hs) (h.limited hs)

theorem Inv.count_next {opts : CircuitBreakerOptions τ} {s : Supervised τ} (h : Inv opts s) :
    s.calls.count (some (s.windows + 1)) = 0 := by
  apply List.count_eq_zero_of_not_mem
  intro hmem
  have := h.opened _ hmem
  omega

/-! ## How the methods move the counter -/

theorem finish_state {opts : CircuitBreakerOptions τ} {b : CircuitBreaker τ} {how : CallEnd}
    {now : τ} (h : (b.finish opts how now).state = .halfOpen) : b.state = .halfOpen := by
  by_contra hstate
  cases how with
  | outcome success =>
    cases success with
    | true =>
      simp only [CircuitBreaker.finish, CircuitBreaker.recordOutcome, if_true,
        CircuitBreaker.onSuccess, hstate, if_false] at h
    | false =>
      simp only [CircuitBreaker.finish, CircuitBreaker.recordOutcome, Bool.false_eq_true, if_false,
        CircuitBreaker.onFailure, hstate, CircuitBreaker.transition] at h
      split at h
      · split at h
        · exact hstate h
        · simp at h
      · exact hstate h
  | released =>
    simp only [CircuitBreaker.finish, CircuitBreaker.release, hstate, if_false] at h
  | circuitOpen => exact hstate h

theorem finish_inFlight {opts : CircuitBreakerOptions τ} {b : CircuitBreaker τ} {how : CallEnd}
    {now : τ} (hb : b.state = .halfOpen) (h : (b.finish opts how now).state = .halfOpen) :
    (how = .circuitOpen ∧ (b.finish opts how now).halfOpenInFlight = b.halfOpenInFlight) ∨
      ((how = .released ∨ how = .outcome true ∧ b.successCount + 1 < opts.successThreshold) ∧
        (b.finish opts how now).halfOpenInFlight = b.halfOpenInFlight - 1) := by
  cases how with
  | outcome success =>
    cases success with
    | true =>
      simp only [CircuitBreaker.finish, CircuitBreaker.recordOutcome, if_true,
        CircuitBreaker.onSuccess, hb] at h ⊢
      split at h
      · simp [CircuitBreaker.transition] at h
      · next hmore =>
        rw [if_neg hmore]
        exact Or.inr ⟨Or.inr ⟨trivial, by omega⟩, rfl⟩
    | false =>
      simp [CircuitBreaker.finish, CircuitBreaker.recordOutcome, CircuitBreaker.onFailure, hb,
        CircuitBreaker.transition] at h
  | released =>
    rw [CircuitBreaker.finish, CircuitBreaker.release, if_pos hb]
    exact Or.inr ⟨Or.inl rfl, rfl⟩
  | circuitOpen => exact Or.inl ⟨rfl, rfl⟩

/-! ## Steps and runs -/

variable [Zero τ] [Sub τ] [Max τ] [LE τ] [DecidableLE τ]

def step (opts : CircuitBreakerOptions τ) (s : Supervised τ) : CallEvent τ → Option (Supervised τ)
  | .start now =>
    let r := s.breaker.admitCall opts now
    let windows := s.windowsAfter r.1
    match r.2 with
    | .error _ => some ⟨r.1, windows, s.calls⟩
    | .ok () =>
      some ⟨r.1, windows, s.calls ++ [if r.1.state = .halfOpen then some windows else none]⟩
  | .finish admittedIn how now =>
    if admittedIn ∈ s.calls then
      let b := s.breaker.finish opts how now
      some ⟨b, s.windowsAfter b, s.calls.erase admittedIn⟩
    else none

theorem start_cases {opts : CircuitBreakerOptions τ} {s s' : Supervised τ} {now : τ}
    (hs : s.step opts (.start now) = some s') :
    s' = s ∨
    (s.breaker.state = .closed ∧ s' = { s with calls := s.calls ++ [none] }) ∨
    (s.breaker.state = .open ∧ s' =
      ⟨{ s.breaker with state := .halfOpen, successCount := 0, halfOpenInFlight := 1 },
        s.windows + 1, s.calls ++ [some (s.windows + 1)]⟩) ∨
    (s.breaker.state = .halfOpen ∧ s.breaker.halfOpenInFlight < opts.halfOpenMaxAttempts ∧ s' =
      ⟨{ s.breaker with state := .halfOpen, halfOpenInFlight := s.breaker.halfOpenInFlight + 1 },
        s.windows, s.calls ++ [some s.windows]⟩) := by
  have hpos := opts.halfOpenMaxAttempts_pos
  cases hstate : s.breaker.state with
  | closed =>
    simp only [step, CircuitBreaker.admitCall, CircuitBreaker.reserve, windowsAfter, hstate,
      reduceCtorEq, if_false, and_false, Option.some.injEq] at hs
    exact .inr (.inl ⟨rfl, hs.symm⟩)
  | «open» =>
    by_cases helapsed : opts.resetTimeoutMs ≤ now - s.breaker.openedAt
    · simp only [step, CircuitBreaker.admitCall, CircuitBreaker.reserve, CircuitBreaker.transition,
        windowsAfter, hstate, helapsed, if_true, reduceCtorEq, if_false, ge_iff_le,
        Nat.not_le.mpr hpos, ne_eq, not_false_eq_true, and_self, Option.some.injEq] at hs
      exact .inr (.inr (.inl ⟨rfl, hs.symm⟩))
    · simp only [step, CircuitBreaker.admitCall, windowsAfter, hstate, helapsed, if_true, if_false,
        reduceCtorEq, and_false, Option.some.injEq] at hs
      exact .inl hs.symm
  | halfOpen =>
    by_cases hfull : opts.halfOpenMaxAttempts ≤ s.breaker.halfOpenInFlight
    · simp only [step, CircuitBreaker.admitCall, CircuitBreaker.reserve, windowsAfter, hstate,
        reduceCtorEq, if_false, if_true, ge_iff_le, hfull, ne_eq, not_true_eq_false, false_and,
        Option.some.injEq] at hs
      exact .inl hs.symm
    · simp only [step, CircuitBreaker.admitCall, CircuitBreaker.reserve, windowsAfter, hstate,
        reduceCtorEq, if_false, if_true, ge_iff_le, hfull, ne_eq, not_true_eq_false, false_and,
        Option.some.injEq] at hs
      exact .inr (.inr (.inr ⟨rfl, by omega, hs.symm⟩))

theorem finish_eq {opts : CircuitBreakerOptions τ} {s s' : Supervised τ} {admittedIn : Option ℕ}
    {how : CallEnd} {now : τ} (hs : s.step opts (.finish admittedIn how now) = some s') :
    admittedIn ∈ s.calls ∧
      s' = ⟨s.breaker.finish opts how now, s.windows, s.calls.erase admittedIn⟩ := by
  simp only [step] at hs
  split at hs
  · next hmem =>
    have hwindows : s.windowsAfter (s.breaker.finish opts how now) = s.windows := by
      rw [windowsAfter, if_neg]
      rintro ⟨hbefore, hafter⟩
      exact hbefore (finish_state hafter)
    rw [hwindows] at hs
    exact ⟨hmem, (Option.some.inj hs).symm⟩
  · simp at hs

theorem inv_start {opts : CircuitBreakerOptions τ} {s s' : Supervised τ} {now : τ}
    (h : Inv opts s) (hs : s.step opts (.start now) = some s') : Inv opts s' := by
  have hpos := opts.halfOpenMaxAttempts_pos
  rcases start_cases hs with rfl | ⟨hstate, rfl⟩ | ⟨hstate, rfl⟩ | ⟨hstate, hroom, rfl⟩
  · exact h
  · refine ⟨by simp [hstate], by simp [hstate], ?_⟩
    intro w hw
    exact h.opened w (by simpa using hw)
  · -- the call opens a window and is its first probe
    refine ⟨?_, ?_, ?_⟩
    · intro _
      simp only [probes, List.count_append, h.count_next]
      simp
    · intro _
      exact hpos
    · intro w hw
      rcases List.mem_append.mp hw with hold | hnew
      · exact Nat.le_succ_of_le (h.opened w hold)
      · obtain rfl : w = s.windows + 1 := by simpa using hnew
        exact Nat.le_refl _
  · have hcounted := h.counted hstate
    refine ⟨?_, ?_, ?_⟩
    · intro _
      simp only [probes, List.count_append] at hcounted ⊢
      simp
      omega
    · intro _
      dsimp only
      omega
    · intro w hw
      rcases List.mem_append.mp hw with hold | hnew
      · exact h.opened w hold
      · obtain rfl : w = s.windows := by simpa using hnew
        exact Nat.le_refl _

theorem inv_finish {opts : CircuitBreakerOptions τ} {s s' : Supervised τ}
    {admittedIn : Option ℕ} {how : CallEnd} {now : τ} (h : Inv opts s)
    (hspares : Spares opts s (.finish admittedIn how now))
    (hs : s.step opts (.finish admittedIn how now) = some s') : Inv opts s' := by
  obtain ⟨-, rfl⟩ := finish_eq hs
  have hopened : ∀ w, some w ∈ s.calls.erase admittedIn → w ≤ s.windows := by
    intro w hw
    exact h.opened w (List.mem_of_mem_erase hw)
  by_cases hstate : (s.breaker.finish opts how now).state = .halfOpen
  case neg => exact ⟨fun hh => absurd hh hstate, fun hh => absurd hh hstate, hopened⟩
  case pos =>
    have hbefore := finish_state hstate
    have hcounted := h.counted hbefore
    have hlimited := h.limited hbefore
    unfold probes at hcounted
    have hcount : (s.calls.erase admittedIn).count (some s.windows) =
        s.calls.count (some s.windows) - if (admittedIn == some s.windows) = true then 1 else 0 :=
      List.count_erase
    refine ⟨fun _ => ?_, fun _ => ?_, hopened⟩
    · unfold probes
      dsimp only
      rcases finish_inFlight hbefore hstate with ⟨-, hsame⟩ | ⟨hhow, hless⟩
      · rw [hsame]
        omega
      · rw [hless]
        by_cases hcurrent : admittedIn = some s.windows
        · rw [hcurrent] at hcount ⊢
          simp only [beq_self_eq_true, if_true] at hcount
          omega
        · -- a call of another window: it may not hand back a slot that is counted
          have hzero : s.breaker.halfOpenInFlight = 0 := by
            by_contra hpos
            obtain ⟨hnot, hcloses⟩ := hspares hbefore (by omega) hcurrent
            rcases hhow with hreleased | ⟨hsuccess, hless⟩
            · exact hnot hreleased
            · have := hcloses hsuccess
              omega
          omega
    · dsimp only
      rcases finish_inFlight hbefore hstate with ⟨-, hsame⟩ | ⟨-, hless⟩ <;> omega

theorem inv_step {opts : CircuitBreakerOptions τ} (s : Supervised τ) (l : CallEvent τ)
    (s' : Supervised τ) (hspares : Spares opts s l) (h : Inv opts s)
    (hs : s.step opts l = some s') : Inv opts s' := by
  cases l with
  | start now => exact inv_start h hs
  | finish admittedIn how now => exact inv_finish h hspares hs

/-- **The probes are bounded in every run that spares the current window's slots.** -/
theorem probes_bounded (opts : CircuitBreakerOptions τ) (openedAt : τ) (events : List (CallEvent τ))
    (s : Supervised τ) (hspares : AllSteps (step opts) (Spares opts) ⟨{ openedAt }, 0, []⟩ events)
    (hrun : run (step opts) ⟨{ openedAt }, 0, []⟩ events = some s) : Bounded opts s := by
  have hinit : Inv opts ⟨{ openedAt }, 0, []⟩ := ⟨by simp, by simp, by simp⟩
  exact (run_invariant inv_step hinit hspares hrun).bounded

theorem probes_bounded_one :
    Bounded { failureThreshold := 1, resetTimeoutMs := (30000 : ℤ) }
      ⟨⟨.halfOpen, 1, 0, 0, 1⟩, 1, [some 1]⟩ :=
  probes_bounded { failureThreshold := 1, resetTimeoutMs := 30000 } 0
    [.start 0, .finish none (.outcome false) 0, .start 30000, .start 30001,
      .finish (some 1) .released 30002, .start 30003] ⟨⟨.halfOpen, 1, 0, 0, 1⟩, 1, [some 1]⟩
    (by decide) (by decide)

/-- One probe at a time, and a call admitted while the breaker was closed that is released while a
probe is in flight: a second probe is admitted next to the first. -/
theorem two_probes :
    ∃ s : Supervised ℤ, run (step { failureThreshold := 1, resetTimeoutMs := (30000 : ℤ) })
        ⟨{ openedAt := 0 }, 0, []⟩
        [.start 0, .start 0, .finish none (.outcome false) 0, .start 30000,
          .finish none .released 30000, .start 30000] = some s ∧
      s.breaker.state = .halfOpen ∧ s.probes = 2 ∧
      ¬ Bounded { failureThreshold := 1, resetTimeoutMs := (30000 : ℤ) } s := by
  refine ⟨⟨⟨.halfOpen, 1, 0, 0, 1⟩, 1, [some 1, some 1]⟩, by decide, rfl, rfl, ?_⟩
  intro h
  exact absurd (h rfl) (by decide)

end Supervised

end Daloy.Resilience
