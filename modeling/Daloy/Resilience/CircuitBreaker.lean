import Mathlib.Tactic.Common

/-! # `CircuitBreaker`

The class of `src/fetch-resilience.ts`, over any type of clock readings. `now` is an argument of the
methods that read the clock. The `onStateChange` observer is taken neither to throw nor to call
the breaker.
-/

namespace Daloy.Resilience
set_option autoImplicit false

inductive CircuitState
  | closed
  | «open»
  | halfOpen
  deriving DecidableEq

structure CircuitBreakerOptions (τ : Type) where
  failureThreshold : ℕ := 5
  resetTimeoutMs : τ
  halfOpenMaxAttempts : ℕ := 1
  successThreshold : ℕ := 1
  failureThreshold_pos : 0 < failureThreshold := by decide
  halfOpenMaxAttempts_pos : 0 < halfOpenMaxAttempts := by decide
  successThreshold_pos : 0 < successThreshold := by decide

structure CircuitBreaker (τ : Type) where
  state : CircuitState := .closed
  failureCount : ℕ := 0
  successCount : ℕ := 0
  openedAt : τ
  halfOpenInFlight : ℕ := 0
  deriving DecidableEq

/-- Thrown when a call is refused. -/
structure CircuitOpenError (τ : Type) where
  retryAfterMs : τ

namespace CircuitBreaker
variable {τ : Type} [Zero τ] [Sub τ] [Max τ] [LE τ] [DecidableLE τ]

def currentState (opts : CircuitBreakerOptions τ) (b : CircuitBreaker τ) (now : τ) : CircuitState :=
  if b.state = .open ∧ opts.resetTimeoutMs ≤ now - b.openedAt then .halfOpen else b.state

def retryAfterMs (opts : CircuitBreakerOptions τ) (b : CircuitBreaker τ) (now : τ) : τ :=
  if b.state ≠ .open then 0 else max 0 (opts.resetTimeoutMs - (now - b.openedAt))

def transition (b : CircuitBreaker τ) (next : CircuitState) (now : τ) : CircuitBreaker τ :=
  if b.state = next then b
  else
    match next with
    | .open => { b with state := .open, openedAt := now }
    | .closed =>
      { b with state := .closed, failureCount := 0, successCount := 0, halfOpenInFlight := 0 }
    | .halfOpen => { b with state := .halfOpen, successCount := 0, halfOpenInFlight := 0 }

/-- The second half of `#admit()`: a slot is taken while the breaker is half-open. -/
def reserve (opts : CircuitBreakerOptions τ) (b : CircuitBreaker τ) (now : τ) :
    CircuitBreaker τ × Except (CircuitOpenError τ) Unit :=
  if b.state = .halfOpen then
    if b.halfOpenInFlight ≥ opts.halfOpenMaxAttempts then (b, .error ⟨retryAfterMs opts b now⟩)
    else ({ b with halfOpenInFlight := b.halfOpenInFlight + 1 }, .ok ())
  else (b, .ok ())

/-- `#admit()`: the breaker afterwards, and the error of a refused call. -/
def admitCall (opts : CircuitBreakerOptions τ) (b : CircuitBreaker τ) (now : τ) :
    CircuitBreaker τ × Except (CircuitOpenError τ) Unit :=
  if b.state = .open then
    if opts.resetTimeoutMs ≤ now - b.openedAt then (b.transition .halfOpen now).reserve opts now
    else (b, .error ⟨retryAfterMs opts b now⟩)
  else b.reserve opts now

/-- `release()`; `Math.max(0, n - 1)` is the subtraction of `ℕ`. -/
def release (b : CircuitBreaker τ) : CircuitBreaker τ :=
  if b.state = .halfOpen then { b with halfOpenInFlight := b.halfOpenInFlight - 1 } else b

def onSuccess (opts : CircuitBreakerOptions τ) (b : CircuitBreaker τ) (now : τ) :
    CircuitBreaker τ :=
  if b.state = .halfOpen then
    let counted := { b with
      halfOpenInFlight := b.halfOpenInFlight - 1
      successCount := b.successCount + 1 }
    if counted.successCount ≥ opts.successThreshold then counted.transition .closed now else counted
  else { b with failureCount := 0 }

def onFailure (opts : CircuitBreakerOptions τ) (b : CircuitBreaker τ) (now : τ) :
    CircuitBreaker τ :=
  if b.state = .halfOpen then
    { b with halfOpenInFlight := b.halfOpenInFlight - 1 }.transition .open now
  else
    let counted := { b with failureCount := b.failureCount + 1 }
    if counted.failureCount ≥ opts.failureThreshold then counted.transition .open now else counted

def recordOutcome (opts : CircuitBreakerOptions τ) (b : CircuitBreaker τ) (success : Bool)
    (now : τ) : CircuitBreaker τ :=
  if success then b.onSuccess opts now else b.onFailure opts now

end CircuitBreaker

/-- How an admitted call ends: with an outcome, released, or, under `execute`, with a
`CircuitOpenError` of its own, which is rethrown before anything is recorded. -/
inductive CallEnd
  | outcome (success : Bool)
  | released
  | circuitOpen
  deriving DecidableEq

def CircuitBreaker.finish {τ : Type} (opts : CircuitBreakerOptions τ) (b : CircuitBreaker τ)
    (how : CallEnd) (now : τ) : CircuitBreaker τ :=
  match how with
  | .outcome success => b.recordOutcome opts success now
  | .released => b.release
  | .circuitOpen => b

end Daloy.Resilience
