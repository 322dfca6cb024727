import Daloy.Resilience.Probes

/-! # When a half-open breaker closes, and that it does not stay half-open for ever

* `Observed`: a supervised breaker with the outcomes recorded since its last window opened.
-/

namespace Daloy.Resilience
set_option autoImplicit false

open Daloy.Runs

variable {τ : Type} [Zero τ] [Sub τ] [Max τ] [LE τ] [DecidableLE τ]

/-! ## Closing -/

/-- A breaker with the outcomes recorded since its last window opened: the window that admitted the
call, and whether the call succeeded. -/
structure Observed (τ : Type) where
  supervised : Supervised τ
  recorded : List (Option ℕ × Bool) := []
  deriving DecidableEq

namespace Observed

def recordedAfter (o : Observed τ) (s' : Supervised τ) : CallEvent τ → List (Option ℕ × Bool)
  | .start _ => if s'.windows = o.supervised.windows then o.recorded else []
  | .finish admittedIn (.outcome success) _ => o.recorded ++ [(admittedIn, success)]
  | .finish _ .released _ => o.recorded
  | .finish _ .circuitOpen _ => o.recorded

def step (opts : CircuitBreakerOptions τ) (o : Observed τ) (l : CallEvent τ) :
    Option (Observed τ) :=
  (o.supervised.step opts l).map fun s' => ⟨s', o.recordedAfter s' l⟩

/-- Where the step closes a half-open breaker, the last `successThreshold` outcomes recorded are
successes of calls that its window admitted. -/
def ClosesOnProbes (opts : CircuitBreakerOptions τ) (o : Observed τ) (l : CallEvent τ) : Prop :=
  ∀ o', o.step opts l = some o' → o.supervised.breaker.state = .halfOpen →
    o'.supervised.breaker.state = .closed →
    opts.successThreshold ≤ o'.recorded.length ∧
      ∀ r ∈ o'.recorded.drop (o'.recorded.length - opts.successThreshold),
        r = (some o.supervised.windows, true)

def OwnSuccess (o : Observed τ) : CallEvent τ → Prop
  | .finish admittedIn (.outcome true) _ =>
    o.supervised.breaker.state = .halfOpen → admittedIn = some o.supervised.windows
  | _ => True

instance (o : Observed τ) : ∀ l, Decidable (OwnSuccess o l)
  | .start _ => inferInstanceAs (Decidable True)
  | .finish _ (.outcome true) _ => inferInstanceAs (Decidable (_ → _))
  | .finish _ (.outcome false) _ => inferInstanceAs (Decidable True)
  | .finish _ .released _ => inferInstanceAs (Decidable True)
  | .finish _ .circuitOpen _ => inferInstanceAs (Decidable True)

/-- A half-open breaker counts the outcomes recorded in its window, successes of its own calls. -/
def Inv (o : Observed τ) : Prop :=
  o.supervised.breaker.state = .halfOpen →
    o.supervised.breaker.successCount = o.recorded.length ∧
      ∀ r ∈ o.recorded, r = (some o.supervised.windows, true)

theorem step_eq_some {opts : CircuitBreakerOptions τ} {o o' : Observed τ} {l : CallEvent τ} :
    o.step opts l = some o' ↔
      ∃ s', o.supervised.step opts l = some s' ∧ o' = ⟨s', o.recordedAfter s' l⟩ := by
  rw [step, Option.map_eq_some_iff]
  simp only [eq_comm]

theorem recorded_append {recorded : List (Option ℕ × Bool)} {window : Option ℕ}
    (h : ∀ r ∈ recorded, r = (window, true)) :
    ∀ r ∈ recorded ++ [(window, true)], r = (window, true) := by
  intro r hr
  rcases List.mem_append.mp hr with hold | hnew
  · exact h r hold
  · exact List.mem_singleton.mp hnew

theorem inv_step {opts : CircuitBreakerOptions τ} (o : Observed τ) (l : CallEvent τ)
    (o' : Observed τ) (hown : OwnSuccess o l) (h : Inv o) (hs : o.step opts l = some o') :
    Inv o' := by
  obtain ⟨s', hs', rfl⟩ := step_eq_some.mp hs
  cases l with
  | start now =>
    rcases Supervised.start_cases hs' with rfl | ⟨hstate, rfl⟩ | ⟨hstate, rfl⟩ |
      ⟨hstate, hroom, rfl⟩
    · simpa [Inv, recordedAfter] using h
    · intro hhalf
      dsimp only at hhalf
      rw [hstate] at hhalf
      simp at hhalf
    · intro _
      simp [recordedAfter]
    · intro _
      simpa [recordedAfter] using h hstate
  | finish admittedIn how now =>
    obtain ⟨-, rfl⟩ := Supervised.finish_eq hs'
    intro hhalf
    dsimp only at hhalf
    have hbefore := Supervised.finish_state hhalf
    obtain ⟨hcount, hrecorded⟩ := h hbefore
    cases how with
    | released =>
      simp only [CircuitBreaker.finish, CircuitBreaker.release, if_pos hbefore]
      exact ⟨hcount, hrecorded⟩
    | circuitOpen => exact ⟨hcount, hrecorded⟩
    | outcome success =>
      cases success with
      | false =>
        -- a failure opens the breaker
        simp [CircuitBreaker.finish, CircuitBreaker.recordOutcome, CircuitBreaker.onFailure,
          hbefore, CircuitBreaker.transition] at hhalf
      | true =>
        obtain rfl := hown hbefore
        refine ⟨?_, recorded_append hrecorded⟩
        simp only [CircuitBreaker.finish, CircuitBreaker.recordOutcome, if_true,
          CircuitBreaker.onSuccess, hbefore] at hhalf ⊢
        split at hhalf
        · simp [CircuitBreaker.transition] at hhalf
        · next hmore =>
          rw [if_neg hmore]
          simp [recordedAfter, hcount]

theorem Inv.closesOnProbes {opts : CircuitBreakerOptions τ} {o : Observed τ} {l : CallEvent τ}
    (hown : OwnSuccess o l) (h : Inv o) : ClosesOnProbes opts o l := by
  intro o' hs hbefore hclosed
  obtain ⟨hcount, hrecorded⟩ := h hbefore
  obtain ⟨s', hs', rfl⟩ := step_eq_some.mp hs
  cases l with
  | start now =>
    rcases Supervised.start_cases hs' with rfl | ⟨hstate, rfl⟩ | ⟨hstate, rfl⟩ |
      ⟨hstate, hroom, rfl⟩
    · dsimp only at hclosed
      rw [hbefore] at hclosed
      simp at hclosed
    · rw [hbefore] at hstate
      simp at hstate
    · simp at hclosed
    · simp at hclosed
  | finish admittedIn how now =>
    obtain ⟨-, rfl⟩ := Supervised.finish_eq hs'
    dsimp only at hclosed
    cases how with
    | released =>
      simp [CircuitBreaker.finish, CircuitBreaker.release, hbefore] at hclosed
    | circuitOpen =>
      simp [CircuitBreaker.finish, hbefore] at hclosed
    | outcome success =>
      cases success with
      | false =>
        simp [CircuitBreaker.finish, CircuitBreaker.recordOutcome, CircuitBreaker.onFailure,
          hbefore, CircuitBreaker.transition] at hclosed
      | true =>
        obtain rfl := hown hbefore
        have hreached : opts.successThreshold ≤ o.supervised.breaker.successCount + 1 := by
          by_contra hmore
          simp [CircuitBreaker.finish, CircuitBreaker.recordOutcome, CircuitBreaker.onSuccess,
            hbefore, hmore] at hclosed
        refine ⟨?_, ?_⟩
        · simp only [recordedAfter, List.length_append, List.length_singleton]
          omega
        · intro r hr
          exact recorded_append hrecorded r (List.mem_of_mem_drop hr)

/-- **The breaker closes on its own probes** in every run in which no call of another window
succeeds while it is half-open. -/
theorem closes_on_probes (opts : CircuitBreakerOptions τ) (openedAt : τ)
    (events : List (CallEvent τ))
    (hown : AllSteps (step opts) OwnSuccess ⟨⟨{ openedAt }, 0, []⟩, []⟩ events) :
    AllSteps (step opts) (ClosesOnProbes opts) ⟨⟨{ openedAt }, 0, []⟩, []⟩ events := by
  have hfresh : Inv (⟨⟨{ openedAt }, 0, []⟩, []⟩ : Observed τ) := by simp [Inv]
  exact allSteps_of_invariant inv_step (fun o l hown h => Inv.closesOnProbes hown h) hfresh hown

theorem closes_on_probes_two :
    AllSteps (step { failureThreshold := 1, resetTimeoutMs := (30000 : ℤ), successThreshold := 2 })
      (ClosesOnProbes
        { failureThreshold := 1, resetTimeoutMs := (30000 : ℤ), successThreshold := 2 })
      ⟨⟨{ openedAt := 0 }, 0, []⟩, []⟩
      [.start 0, .finish none (.outcome false) 0, .start 30000,
        .finish (some 1) (.outcome true) 30001, .start 30002,
        .finish (some 1) (.outcome true) 30003] :=
  closes_on_probes _ 0 _ (by decide)

/-- One call admitted while the breaker was closed fails and opens it; another one, as old, succeeds
while a probe is in flight, and closes it. -/
theorem closes_without_probe :
    ∃ o : Observed ℤ, run (step { failureThreshold := 1, resetTimeoutMs := (30000 : ℤ) })
        ⟨⟨{ openedAt := 0 }, 0, []⟩, []⟩
        [.start 0, .start 0, .finish none (.outcome false) 0, .start 30000] = some o ∧
      ¬ ClosesOnProbes { failureThreshold := 1, resetTimeoutMs := (30000 : ℤ) } o
        (.finish none (.outcome true) 30001) := by
  refine ⟨⟨⟨⟨.halfOpen, 1, 0, 0, 1⟩, 1, [none, some 1]⟩, []⟩, by decide, ?_⟩
  intro h
  obtain ⟨-, hprobes⟩ := h ⟨⟨⟨.closed, 0, 0, 0, 0⟩, 1, [some 1]⟩, [(none, true)]⟩
    (by decide) rfl rfl
  exact absurd (hprobes (none, true) (by decide)) (by decide)

end Observed

/-! ## Admission -/

namespace Supervised

/-- No probe of the current window ends with a `CircuitOpenError`. -/
def HandsBack (s : Supervised τ) : CallEvent τ → Prop
  | .finish admittedIn .circuitOpen _ =>
    s.breaker.state = .halfOpen → admittedIn ≠ some s.windows
  | _ => True

instance (s : Supervised τ) : ∀ l, Decidable (HandsBack s l)
  | .start _ => inferInstanceAs (Decidable True)
  | .finish _ .circuitOpen _ => inferInstanceAs (Decidable (_ → _))
  | .finish _ (.outcome _) _ => inferInstanceAs (Decidable True)
  | .finish _ .released _ => inferInstanceAs (Decidable True)

def Covered (s : Supervised τ) : Prop :=
  s.breaker.state = .halfOpen → s.breaker.halfOpenInFlight ≤ s.probes

theorem covered_start {opts : CircuitBreakerOptions τ} {s s' : Supervised τ} {now : τ}
    (h : Covered s) (hs : s.step opts (.start now) = some s') : Covered s' := by
  rcases start_cases hs with rfl | ⟨hstate, rfl⟩ | ⟨hstate, rfl⟩ | ⟨hstate, hroom, rfl⟩
  · exact h
  · intro hhalf
    dsimp only at hhalf
    rw [hstate] at hhalf
    simp at hhalf
  · intro _
    simp [probes]
  · intro _
    have := h hstate
    simp only [probes, List.count_append] at this ⊢
    simp
    omega

theorem covered_finish {opts : CircuitBreakerOptions τ} {s s' : Supervised τ}
    {admittedIn : Option ℕ} {how : CallEnd} {now : τ} (h : Covered s)
    (hback : HandsBack s (.finish admittedIn how now))
    (hs : s.step opts (.finish admittedIn how now) = some s') : Covered s' := by
  obtain ⟨hmem, rfl⟩ := finish_eq hs
  intro hhalf
  dsimp only at hhalf ⊢
  have hbefore := finish_state hhalf
  have hcovered := h hbefore
  unfold probes at hcovered ⊢
  dsimp only
  have hcount : (s.calls.erase admittedIn).count (some s.windows) =
      s.calls.count (some s.windows) - if (admittedIn == some s.windows) = true then 1 else 0 :=
    List.count_erase
  rcases finish_inFlight hbefore hhalf with ⟨rfl, hsame⟩ | ⟨-, hless⟩
  · -- no slot is handed back, and none was held
    have hother : (admittedIn == some s.windows) = false := by simpa using hback hbefore
    rw [hother] at hcount
    simp only [Bool.false_eq_true, if_false] at hcount
    omega
  · rw [hless]
    by_cases hcurrent : (admittedIn == some s.windows) = true
    · rw [if_pos hcurrent] at hcount
      omega
    · rw [if_neg hcurrent] at hcount
      omega

theorem covered_step {opts : CircuitBreakerOptions τ} (s : Supervised τ) (l : CallEvent τ)
    (s' : Supervised τ) (hback : HandsBack s l) (h : Covered s) (hs : s.step opts l = some s') :
    Covered s' := by
  cases l with
  | start now => exact covered_start h hs
  | finish admittedIn how now => exact covered_finish h hback hs

theorem admitCall_ok {opts : CircuitBreakerOptions τ} {b : CircuitBreaker τ} {now : τ}
    (hfree : b.state = .halfOpen → b.halfOpenInFlight = 0)
    (hready : b.state = .open → opts.resetTimeoutMs ≤ now - b.openedAt) :
    (b.admitCall opts now).2 = .ok () := by
  have hpos := opts.halfOpenMaxAttempts_pos
  cases hstate : b.state with
  | closed => simp [CircuitBreaker.admitCall, CircuitBreaker.reserve, hstate]
  | «open» =>
    simp [CircuitBreaker.admitCall, CircuitBreaker.reserve, CircuitBreaker.transition, hstate,
      hready hstate, Nat.pos_iff_ne_zero.mp hpos]
  | halfOpen =>
    simp [CircuitBreaker.admitCall, CircuitBreaker.reserve, hstate, hfree hstate,
      Nat.pos_iff_ne_zero.mp hpos]

/-- **The breaker does not wedge** in a run in which no probe ends with a `CircuitOpenError`: once
every call has ended, it admits the next one, unless it is open and its timeout has not passed. -/
theorem admits_again (opts : CircuitBreakerOptions τ) (openedAt : τ) (events : List (CallEvent τ))
    (s : Supervised τ) (hback : AllSteps (step opts) HandsBack ⟨{ openedAt }, 0, []⟩ events)
    (hrun : run (step opts) ⟨{ openedAt }, 0, []⟩ events = some s) (hended : s.calls = [])
    (now : τ) (hready : s.breaker.state = .open → opts.resetTimeoutMs ≤ now - s.breaker.openedAt) :
    (s.breaker.admitCall opts now).2 = .ok () := by
  have hfresh : Covered (⟨{ openedAt }, 0, []⟩ : Supervised τ) := by simp [Covered]
  have hcovered : Covered s := run_invariant covered_step hfresh hback hrun
  apply admitCall_ok
  · intro hhalf
    have := hcovered hhalf
    simp only [probes, hended, List.count_nil] at this
    omega
  · exact hready

theorem admits_again_released :
    ((⟨.halfOpen, 1, 0, 0, 0⟩ : CircuitBreaker ℤ).admitCall
      { failureThreshold := 1, resetTimeoutMs := (30000 : ℤ) } 30001).2 = .ok () :=
  admits_again { failureThreshold := 1, resetTimeoutMs := (30000 : ℤ) } 0
    [.start 0, .finish none (.outcome false) 0, .start 30000, .finish (some 1) .released 30001]
    ⟨⟨.halfOpen, 1, 0, 0, 0⟩, 1, []⟩ (by decide) (by decide) rfl 30001
    (by decide)

/-- A probe that ends with a `CircuitOpenError` keeps its slot: no call is in flight, and none is
admitted any more. -/
theorem wedged :
    ∃ s : Supervised ℤ, run (step { failureThreshold := 1, resetTimeoutMs := (30000 : ℤ) })
        ⟨{ openedAt := 0 }, 0, []⟩
        [.start 0, .finish none (.outcome false) 0, .start 30000,
          .finish (some 1) .circuitOpen 30001] = some s ∧
      s.calls = [] ∧ s.breaker.state = .halfOpen ∧
      ∀ now, (s.breaker.admitCall { failureThreshold := 1, resetTimeoutMs := (30000 : ℤ) } now).2 ≠
        .ok () := by
  refine ⟨⟨⟨.halfOpen, 1, 0, 0, 1⟩, 1, []⟩, by decide, rfl, rfl, ?_⟩
  intro now h
  simp [CircuitBreaker.admitCall, CircuitBreaker.reserve] at h

end Supervised

end Daloy.Resilience
