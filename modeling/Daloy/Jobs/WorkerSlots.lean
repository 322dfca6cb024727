import Daloy.Jobs.WorkerStop
import Mathlib.Data.List.Perm.Basic

/-! # How much a worker polls for at once

A drain loop claims while fewer than `concurrency` jobs are in flight, and `runOnce` claims besides.

* `Watch`: a worker, and the entries that were launched for a `runOnce`.
* `Slots`: one drain loop awaits at most one claim, and there is a slot for it.
* `polled_within_concurrency`: polling never has more than `concurrency` jobs in flight.
-/

namespace Daloy.Jobs
set_option autoImplicit false

open Daloy.Runs

variable {ν τ : Type} {opts : JobWorkerOptions}

structure Watch (ν τ : Type) where
  worker : JobWorker ν τ := {}
  solo : List ℕ := []

/-- The entry that a step launches for a `runOnce`. -/
def soloEntries (w : JobWorker ν τ) : WorkerStep ν τ → List ℕ
  | .input (.claimResumes i) =>
    match w.claims[i]? with
    | some (.runOnce, .answered (some _)) => [w.nextEntry]
    | _ => []
  | _ => []

def Watch.step (opts : JobWorkerOptions) (x : Watch ν τ) (l : WorkerStep ν τ) :
    Option (Watch ν τ) :=
  (x.worker.step opts l).map fun w => ⟨w, soloEntries x.worker l ++ x.solo⟩

namespace JobWorker

/-- Who awaits a claim, or has a launch under way. -/
def callers (w : JobWorker ν τ) : List ClaimCaller :=
  w.claims.map Prod.fst ++ (w.launching.map Prod.fst).toList

/-- The jobs in flight that were not launched for a `runOnce`. -/
def polled (w : JobWorker ν τ) (solo : List ℕ) : List ℕ :=
  (w.inFlight.map (·.entry)).filter (· ∉ solo)

structure Slots (opts : JobWorkerOptions) (w : JobWorker ν τ) (solo : List ℕ) : Prop where
  drains : w.callers.count .drain = if w.draining then 1 else 0
  bounded : (w.polled solo).length + w.callers.count .drain ≤ opts.concurrency
  launched : ∀ run, w.launching = some (.runOnce, run) → run.entry ∈ solo

variable {w w' : JobWorker ν τ} {solo : List ℕ}

theorem Slots.frame (h : Slots opts w solo)
    (hcallers : w'.callers.count .drain = w.callers.count .drain)
    (hlaunching : w'.launching = w.launching) (hdraining : w'.draining = w.draining)
    (hfly : (w'.inFlight.map (·.entry)).Sublist (w.inFlight.map (·.entry)) := by
      exact List.Sublist.refl _) : Slots opts w' solo := by
  have hfewer := (hfly.filter fun entry => decide (entry ∉ solo)).length_le
  refine ⟨by rw [hcallers, hdraining, h.drains], ?_, hlaunching ▸ h.launched⟩
  rw [hcallers]
  exact Nat.le_trans (Nat.add_le_add_right hfewer _) h.bounded

/-- A drain loop that awaits a claim or a launch awaits nothing else. -/
theorem Slots.alone (h : Slots opts w solo) {rest : ℕ}
    (hsplit : w.callers.count .drain = rest + [ClaimCaller.drain].count .drain) :
    w.draining = true ∧ rest = 0 := by
  have hone : [ClaimCaller.drain].count .drain = 1 := rfl
  have hdrains := h.drains
  split at hdrains
  · next hdraining => exact ⟨hdraining, by omega⟩
  · omega

/-! ## The drain loop, between two claims -/

theorem Slots.drainClaims (h : Slots opts { w with draining := false } solo)
    (hdraining : w.draining = true) (hroom : w.inFlight.length < opts.concurrency) :
    Slots opts (w.drainClaims opts) solo := by
  have hnone : w.callers.count .drain = 0 := h.drains
  have hone : (w.drainClaims opts).callers.count .drain = 1 := by
    rw [callers, List.count_append] at hnone ⊢
    simp only [JobWorker.drainClaims, List.map_append, List.count_append, List.map_cons,
      List.map_nil, List.count_singleton_self]
    omega
  have hfewer : (w.polled solo).length ≤ w.inFlight.length := by
    exact (List.length_filter_le ..).trans_eq (List.length_map ..)
  refine ⟨hone.trans (if_pos hdraining).symm, ?_, h.launched⟩
  rw [hone]
  exact Nat.lt_of_le_of_lt hfewer hroom

theorem Slots.drainBreaks (h : Slots opts { w with draining := false } solo)
    (hdraining : w.draining = true) : Slots opts (w.drainBreaks opts) solo := by
  have hagain : Slots opts { w with drainAgain := false, draining := false } solo :=
    h.frame rfl rfl rfl
  unfold JobWorker.drainBreaks
  dsimp only
  split
  · split
    · next hroom => exact hagain.drainClaims hdraining hroom
    · exact hagain
  · exact h

theorem Slots.drainTurn (h : Slots opts { w with draining := false } solo)
    (hdraining : w.draining = true) : Slots opts (w.drainTurn opts) solo := by
  unfold JobWorker.drainTurn
  split
  · next hroom => exact h.drainClaims hdraining hroom.2
  · exact h.drainBreaks hdraining

theorem Slots.arm (h : Slots opts w solo) : Slots opts w.arm solo := by
  unfold JobWorker.arm
  split
  · exact h
  · exact h.frame rfl rfl rfl

theorem Slots.tick (h : Slots opts w solo) : Slots opts (w.tick opts) solo := by
  have harmed := h.arm
  unfold JobWorker.tick drainAvailable
  split
  · exact h
  split
  · exact harmed.frame rfl rfl rfl
  · next hidle =>
    have hidle : w.arm.draining = false := by simpa using hidle
    exact Slots.drainTurn (harmed.frame rfl rfl hidle.symm) rfl

/-! ## Launches -/

theorem launch_eq (opts : JobWorkerOptions) (w : JobWorker ν τ) (caller : ClaimCaller)
    (job : Job ν τ) :
    ∃ run events, run.entry = w.nextEntry ∧ w.launch opts caller job =
      { w with
        launching := some (caller, run)
        nextEntry := w.nextEntry + 1
        events := events } := by
  unfold JobWorker.launch
  dsimp only
  split
  · exact ⟨_, _, rfl, rfl⟩
  · exact ⟨_, _, entry_caught _ true, rfl⟩

theorem Slots.resumed (h : Slots opts w solo) (hidle : w.launching = none) {i : ℕ}
    {caller : ClaimCaller} {claim : ClaimNext ν τ} (hclaim : w.claims[i]? = some (caller, claim))
    (hs : { w with claims := w.claims.eraseIdx i }.resume opts caller claim = some w') :
    Slots opts w' (soloEntries w (.input (.claimResumes i)) ++ solo) := by
  have hsplit : w.callers.count .drain =
      ((w.claims.eraseIdx i).map Prod.fst).count .drain + [caller].count .drain := by
    obtain ⟨hlt, hget⟩ := List.getElem?_eq_some_iff.mp hclaim
    have hperm := (List.getElem_cons_eraseIdx_perm hlt).map Prod.fst
    rw [hget, List.map_cons] at hperm
    simp [callers, hidle, ← hperm.count_eq, List.count_cons]
  have hnothing (hs : { w with claims := w.claims.eraseIdx i }.resume opts caller .threw =
      some w') : Slots opts w' solo := by
    have hrest : ({ w with claims := w.claims.eraseIdx i } : JobWorker ν τ).callers.count .drain =
        ((w.claims.eraseIdx i).map Prod.fst).count .drain := by simp [callers, hidle]
    cases caller with
    | drain =>
      obtain rfl := Option.some.inj hs
      obtain ⟨hdraining, hzero⟩ := h.alone hsplit
      have hnone := hrest.trans hzero
      refine Slots.drainBreaks ⟨hnone, ?_, h.launched⟩ hdraining
      exact Nat.le_trans (Nat.add_le_add_left (hnone.trans_le (Nat.zero_le _)) _) h.bounded
    | runOnce =>
      obtain rfl := Option.some.inj hs
      exact h.frame (hrest.trans hsplit.symm) rfl rfl
  cases claim with
  | answered job =>
    cases job with
    | none =>
      have hsolo : soloEntries w (.input (.claimResumes i)) = [] := by
        cases caller <;> simp [soloEntries, hclaim]
      exact hsolo ▸ hnothing hs
    | some job =>
      obtain rfl := Option.some.inj hs
      obtain ⟨run, events, hentry, hlaunch⟩ := launch_eq opts
        { w with claims := w.claims.eraseIdx i } caller job
      have hcount : ((w.claims.eraseIdx i).map Prod.fst ++ [caller]).count .drain =
          w.callers.count .drain := by rw [List.count_append, hsplit]
      rw [hlaunch]
      refine ⟨hcount.trans h.drains, ?_, ?_⟩
      · refine Nat.le_trans (Nat.add_le_add ?_ hcount.le) h.bounded
        exact (List.monotone_filter_right _ (by simp)).length_le
      · intro run' hrun'
        obtain ⟨rfl, rfl⟩ := Prod.mk.inj (Option.some.inj hrun')
        simp [soloEntries, hclaim, hentry]
  | threw =>
    have hsolo : soloEntries w (.input (.claimResumes i)) = [] := by
      cases caller <;> simp [soloEntries, hclaim]
    exact hsolo ▸ hnothing hs
  | takingReaped queues => simp [resume] at hs
  | reporting hooks queues => simp [resume] at hs
  | claiming queues => simp [resume] at hs

theorem Slots.launch_returns (h : Slots opts w solo) {caller : ClaimCaller}
    {run run' : InFlightJob ν τ} (hlaunching : w.launching = some (caller, run))
    (hentry : run'.entry = run.entry) : Slots opts (w.launched opts caller run') solo := by
  have hbounded := h.bounded
  have hsplit : w.callers.count .drain =
      (w.claims.map Prod.fst).count .drain + [caller].count .drain := by
    rw [callers, hlaunching, List.count_append]
    rfl
  have hpolled : (({ w with launching := none, inFlight := w.inFlight ++ [run'] } :
      JobWorker ν τ).polled solo).length =
        (w.polled solo).length + if run.entry ∈ solo then 0 else 1 := by
    rw [polled, polled, List.map_append, List.filter_append, List.length_append]
    by_cases hsolo : run.entry ∈ solo <;> simp [hentry, hsolo]
  cases caller with
  | drain =>
    have hone : [ClaimCaller.drain].count .drain = 1 := rfl
    obtain ⟨hdraining, hzero⟩ := h.alone hsplit
    have hnone : (w.claims.map Prod.fst ++ []).count ClaimCaller.drain = 0 := by
      rw [List.append_nil, hzero]
    refine Slots.drainTurn ⟨hnone, ?_, fun run hrun => by cases hrun⟩ hdraining
    refine Nat.le_trans (Nat.add_le_add hpolled.le hnone.le) ?_
    split <;> omega
  | runOnce =>
    rw [if_pos (h.launched run hlaunching)] at hpolled
    have hsame : (w.claims.map Prod.fst ++ []).count ClaimCaller.drain =
        w.callers.count .drain := by
      rw [List.append_nil, hsplit]
      rfl
    refine ⟨hsame.trans h.drains, ?_, fun run hrun => by cases hrun⟩
    exact Nat.le_trans (Nat.add_le_add hpolled.le hsame.le) hbounded

/-! ## Steps and runs -/

theorem Slots.updateRun {entry : ℕ} {f : InFlightJob ν τ → Option (InFlightJob ν τ)}
    (hf : ∀ run run', f run = some run' → run'.entry = run.entry)
    (hs : w.updateRun entry f = some w') (h : Slots opts w solo) : Slots opts w' solo := by
  obtain ⟨run', hrun', rfl⟩ := Option.map_eq_some_iff.mp hs
  obtain ⟨run, hfind, hstep⟩ := Option.bind_eq_some_iff.mp hrun'
  have hentry : run'.entry = entry :=
    (hf run run' hstep).trans (by simpa using List.find?_some hfind)
  have hsame : (w.inFlight.map fun run => if run.entry = entry then run' else run).map (·.entry) =
      w.inFlight.map (·.entry) := by
    simp only [List.map_map, List.map_inj_left, Function.comp_apply]
    grind
  exact h.frame rfl rfl rfl (hsame ▸ List.Sublist.refl _)

theorem Slots.received (h : Slots opts w solo) (hidle : w.launching = none) {i : WorkerInput ν τ}
    (hs : w.received opts i = some w') : Slots opts w' (soloEntries w (.input i) ++ solo) := by
  cases i with
  | pollFires =>
    simp only [JobWorker.received, Option.ite_none_right_eq_some, Option.some.injEq] at hs
    obtain ⟨-, rfl⟩ := hs
    exact Slots.tick (h.frame rfl rfl rfl)
  | claimSettles i answer =>
    obtain ⟨claim, hclaim, hnext⟩ := Option.bind_eq_some_iff.mp hs
    obtain ⟨next, -, rfl⟩ := Option.map_eq_some_iff.mp hnext
    have hsame : (w.claims.set i (claim.1, next)).map Prod.fst = w.claims.map Prod.fst := by
      obtain ⟨hlt, rfl⟩ := List.getElem?_eq_some_iff.mp hclaim
      rw [List.map_set, ← List.getElem_map Prod.fst, List.set_getElem_self]
      simpa using hlt
    exact h.frame (by rw [callers, callers, hsame]) rfl rfl
  | claimResumes i =>
    obtain ⟨⟨caller, claim⟩, hclaim, hresume⟩ := Option.bind_eq_some_iff.mp hs
    exact h.resumed hidle hclaim hresume
  | handlerEnds entry how => exact h.updateRun (by grind [entry_handled]) hs
  | storeEnds entry how => exact h.updateRun (fun _ _ => entry_stored) hs
  | hookSettles entry => exact h.updateRun (fun _ _ => entry_hooked) hs
  | runSettles entry =>
    simp only [JobWorker.received, Option.ite_none_right_eq_some, Option.some.injEq] at hs
    obtain ⟨-, rfl⟩ := hs
    exact h.frame rfl rfl rfl (List.filter_sublist.map _)
  | timeoutFires entry | leaseLost entry => exact h.updateRun (by grind) hs
  | graceElapses =>
    have hsame : ∃ phase, w' = { w with stopPhase := phase } := by grind [JobWorker.received]
    obtain ⟨phase, rfl⟩ := hsame
    exact h.frame rfl rfl rfl
  | stopResumes =>
    have hresolved : Slots opts w.resolveStop solo := h.frame rfl rfl rfl
    have haborted (phase : StopPhase) : Slots opts { w with
        inFlight := w.inFlight.map fun run => { run with aborted := true }
        stopPhase := phase } solo := by
      refine h.frame rfl rfl rfl ?_
      rw [List.map_map]
      exact List.Sublist.refl _
    change w.stopResumes = some w' at hs
    unfold JobWorker.stopResumes at hs
    split at hs
    · split at hs
      · split at hs
        · obtain rfl := Option.some.inj hs
          exact haborted _
        · obtain rfl := Option.some.inj hs
          exact hresolved
      · simp at hs
    · split at hs
      · obtain rfl := Option.some.inj hs
        exact hresolved
      · simp at hs
    · simp at hs

theorem Slots.step {l : WorkerStep ν τ} (h : Slots opts w solo) (hs : w.step opts l = some w') :
    Slots opts w' (soloEntries w l ++ solo) := by
  cases l with
  | call c =>
    obtain rfl := Option.some.inj hs
    cases c with
    | start =>
      have harmed : Slots opts { w with started := true }.arm solo :=
        Slots.arm (h.frame rfl rfl rfl)
      rw [called]
      split
      · exact h
      · exact harmed
    | runOnce => exact h.frame (by simp [called, callers]) rfl rfl
    | stop graceMs =>
      have hstop : Slots opts w.stop solo := by
        unfold JobWorker.stop
        split
        · exact h
        · dsimp only
          split <;> exact h.frame rfl rfl rfl
      cases graceMs with
      | nonInteger => exact h
      | integer n =>
        rw [called]
        split
        · exact h
        · exact hstop
  | launchReturns threw =>
    obtain ⟨⟨caller, run⟩, hlaunching, rfl⟩ := Option.map_eq_some_iff.mp hs
    refine h.launch_returns hlaunching ?_
    cases threw with
    | none => rfl
    | some fatal =>
      dsimp only [launchedRun]
      split
      · exact entry_caught run fatal
      · rfl
  | input i =>
    simp only [JobWorker.step, Option.ite_none_left_eq_some] at hs
    exact h.received (by simpa using hs.1) hs.2

/-- **Polling stays within `concurrency`**: in every run, however calls of `runOnce` mix with it,
the jobs in flight that were not launched for a `runOnce`, and the claim or launch that the drain
loop waits for, are at most `concurrency`. -/
theorem polled_within_concurrency (opts : JobWorkerOptions) (steps : List (WorkerStep ν τ))
    (x : Watch ν τ) (hrun : run (Watch.step opts) {} steps = some x) :
    (x.worker.polled x.solo).length + x.worker.callers.count .drain ≤ opts.concurrency ∧
      x.worker.callers.count .drain ≤ 1 := by
  have hstep (x : Watch ν τ) (l : WorkerStep ν τ) (x' : Watch ν τ)
      (h : Slots opts x.worker x.solo) (hs : x.step opts l = some x') :
      Slots opts x'.worker x'.solo := by
    obtain ⟨w', hw', rfl⟩ := Option.map_eq_some_iff.mp hs
    exact h.step hw'
  have hfresh : Slots opts ({} : JobWorker ν τ) [] :=
    ⟨rfl, Nat.zero_le _, fun run hrun => by cases hrun⟩
  have h := run_invariant_all hstep hfresh hrun
  refine ⟨h.bounded, ?_⟩
  rw [h.drains]
  split <;> decide

def soloSteps : List (WorkerStep ℕ ℤ) :=
  [.call .start, .input .pollFires, .input (.claimSettles 0 (.job (some sampleJob))),
    .input (.claimResumes 0), .launchReturns none, .call .runOnce,
    .input (.claimSettles 0 (.job (some sampleJob))), .input (.claimResumes 0), .launchReturns none]

/-- One job is polled for and one is launched for a `runOnce`, and both are in flight. -/
theorem polled_within_concurrency_solo :
    ∃ x : Watch ℕ ℤ, run (Watch.step sampleOptions) {} soloSteps = some x ∧
      x.solo = [1] ∧ x.worker.inFlight.length = 2 ∧
      (x.worker.polled x.solo).length + x.worker.callers.count .drain ≤
        sampleOptions.concurrency := by
  have hrun : (run (Watch.step sampleOptions) {} soloSteps).map
      (fun x => (x.solo, x.worker.inFlight.length)) = some ([1], 2) := by decide
  obtain ⟨x, hx, hlog⟩ := Option.map_eq_some_iff.mp hrun
  obtain ⟨hsolo, hlength⟩ := Prod.mk.inj hlog
  exact ⟨x, hx, hsolo, hlength, (polled_within_concurrency sampleOptions _ x hx).1⟩

end JobWorker

end Daloy.Jobs
