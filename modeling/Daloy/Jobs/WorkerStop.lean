import Daloy.Foundations.Runs
import Daloy.Jobs.Worker

/-! # A stopped worker runs nothing

`stopped_runs_nothing`: in a run where `stop` is not called from the synchronous start of a handler
and no `claimNext` resumes its caller with a job once `stop` has been called, no job is in flight when
the promise of `stop` has resolved, and no handler starts later. `job_after_stop` is the run the
worker does not guard against: a claim that was awaiting the store when `stop` was called.
-/

namespace Daloy.Jobs
set_option autoImplicit false

open Daloy.Unicode Daloy.Runs

variable {ν τ : Type}

namespace JobWorker

/-- The promise of `stop` has resolved and nothing runs; no handler started behind it. -/
structure RunsNothing (w : JobWorker ν τ) : Prop where
  inFlight : w.stopPhase = .resolved → w.inFlight = [] ∧ w.launching = none
  events : w.events.Pairwise fun before after =>
    before = .stopResolved → ∀ entry, after ≠ .handlerStarted entry

def hasJob (w : JobWorker ν τ) (i : ℕ) : Bool :=
  match w.claims[i]? with
  | some (_, .answered (some _)) => true
  | _ => false

/-- The step does not launch a job behind a call of `stop`, nor call `stop` while a launch is under
way. -/
def Spares (w : JobWorker ν τ) : WorkerStep ν τ → Prop
  | .call (.stop _) => w.stopped = false → w.launching.isSome = false
  | .input (.claimResumes i) => w.stopped = true → w.hasJob i = false
  | _ => True

instance (w : JobWorker ν τ) : ∀ l, Decidable (Spares w l)
  | .call (.stop _) | .input (.claimResumes _) => inferInstanceAs (Decidable (_ → _))
  | .call .start | .call .runOnce | .launchReturns _ => .isTrue trivial
  | .input .pollFires | .input (.claimSettles ..) | .input (.handlerEnds ..)
  | .input (.storeEnds ..) | .input (.hookSettles _) | .input (.runSettles _)
  | .input (.timeoutFires _) | .input (.leaseLost _) | .input .graceElapses
  | .input .stopResumes => .isTrue trivial

/-! ## What the code does to the runs -/

/-- No run starts, `stop` stays where it is, and no entry joins the set in flight. -/
structure Calm (w w' : JobWorker ν τ) : Prop where
  stopped : w'.stopped = w.stopped
  launching : w'.launching = w.launching
  stopPhase : w'.stopPhase = w.stopPhase
  events : w'.events = w.events
  inFlight : ∀ run' ∈ w'.inFlight, ∃ run ∈ w.inFlight, run.entry = run'.entry

theorem Calm.refl (w : JobWorker ν τ) : Calm w w :=
  ⟨rfl, rfl, rfl, rfl, fun run hrun => ⟨run, hrun, rfl⟩⟩

theorem Calm.trans {w w' w'' : JobWorker ν τ} (h : Calm w w') (h' : Calm w' w'') : Calm w w'' := by
  refine ⟨h'.stopped.trans h.stopped, h'.launching.trans h.launching,
    h'.stopPhase.trans h.stopPhase, h'.events.trans h.events, ?_⟩
  intro run'' hrun''
  obtain ⟨run', hrun', heq'⟩ := h'.inFlight run'' hrun''
  obtain ⟨run, hrun, heq⟩ := h.inFlight run' hrun'
  exact ⟨run, hrun, heq.trans heq'⟩

variable {opts : JobWorkerOptions}

theorem calm_arm (w : JobWorker ν τ) : Calm w w.arm := by
  unfold arm
  split
  · exact Calm.refl w
  · exact ⟨rfl, rfl, rfl, rfl, fun run hrun => ⟨run, hrun, rfl⟩⟩

theorem calm_drainBreaks (w : JobWorker ν τ) : Calm w (w.drainBreaks opts) := by
  unfold drainBreaks
  dsimp only
  split
  · split <;> exact ⟨rfl, rfl, rfl, rfl, fun run hrun => ⟨run, hrun, rfl⟩⟩
  · exact ⟨rfl, rfl, rfl, rfl, fun run hrun => ⟨run, hrun, rfl⟩⟩

theorem calm_drainTurn (w : JobWorker ν τ) : Calm w (w.drainTurn opts) := by
  unfold drainTurn
  split
  · exact ⟨rfl, rfl, rfl, rfl, fun run hrun => ⟨run, hrun, rfl⟩⟩
  · exact calm_drainBreaks w

theorem calm_tick (w : JobWorker ν τ) : Calm w (w.tick opts) := by
  unfold tick drainAvailable
  split
  · exact Calm.refl w
  split
  · exact (calm_arm w).trans ⟨rfl, rfl, rfl, rfl, fun run hrun => ⟨run, hrun, rfl⟩⟩
  · have hbegin (w : JobWorker ν τ) : Calm w { w with draining := true, drainAgain := false } :=
      ⟨rfl, rfl, rfl, rfl, fun run hrun => ⟨run, hrun, rfl⟩⟩
    exact ((calm_arm w).trans (hbegin w.arm)).trans (calm_drainTurn _)

theorem calm_updateRun {w w' : JobWorker ν τ} {entry : ℕ}
    {f : InFlightJob ν τ → Option (InFlightJob ν τ)}
    (hf : ∀ run run', f run = some run' → run'.entry = run.entry)
    (h : w.updateRun entry f = some w') : Calm w w' := by
  obtain ⟨run', hrun', rfl⟩ := Option.map_eq_some_iff.mp h
  obtain ⟨run, hfind, hstep⟩ := Option.bind_eq_some_iff.mp hrun'
  refine ⟨rfl, rfl, rfl, rfl, ?_⟩
  intro other hother
  obtain ⟨old, hold, rfl⟩ := List.mem_map.mp hother
  split
  · exact ⟨run, List.mem_of_find?_eq_some hfind, (hf run run' hstep).symm⟩
  · exact ⟨old, hold, rfl⟩

theorem entry_caught (run : InFlightJob ν τ) (fatal : Bool) :
    (run.caught fatal).entry = run.entry := by
  unfold InFlightJob.caught
  split <;> rfl

theorem entry_handled (run : InFlightJob ν τ) (how : HandlerEnd) :
    (run.handled how).entry = run.entry := by
  unfold InFlightJob.handled
  split
  · exact entry_caught run _
  split
  · exact entry_caught run _
  split
  · rfl
  · exact entry_caught run _

theorem entry_stored {run run' : InFlightJob ν τ} {how : StoreEnd} (h : run.stored how = some run') :
    run'.entry = run.entry := by
  unfold InFlightJob.stored at h
  split at h
  · split at h
    · obtain rfl := Option.some.inj h
      rfl
    · obtain rfl := Option.some.inj h
      rfl
    · obtain rfl := Option.some.inj h
      exact entry_caught run false
  · split at h
    · obtain rfl := Option.some.inj h
      rfl
    · obtain rfl := Option.some.inj h
      rfl
    · obtain rfl := Option.some.inj h
      rfl
  · simp at h

theorem entry_hooked {run run' : InFlightJob ν τ} (h : run.hooked = some run') :
    run'.entry = run.entry := by
  unfold InFlightJob.hooked at h
  split at h
  · obtain rfl := Option.some.inj h
    rfl
  · simp at h

/-! ## The invariant -/

structure Inv (w : JobWorker ν τ) : Prop where
  called : w.stopped = false → w.stopPhase = .notCalled
  idle : w.stopped = true → w.launching = none
  racing : ∀ snapshot timedOut, w.stopPhase = .racing snapshot timedOut →
    ∀ run ∈ w.inFlight, run.entry ∈ snapshot
  unwinding : ∀ snapshot, w.stopPhase = .unwinding snapshot → ∀ run ∈ w.inFlight, run.entry ∈ snapshot
  resolved : w.stopPhase = .resolved → w.stopped = true ∧ w.inFlight = []
  announced : .stopResolved ∈ w.events → w.stopPhase = .resolved
  ordered : w.events.Pairwise fun before after =>
    before = .stopResolved → ∀ entry, after ≠ .handlerStarted entry

theorem Inv.runsNothing {w : JobWorker ν τ} (h : Inv w) : RunsNothing w := by
  refine ⟨?_, h.ordered⟩
  intro hresolved
  obtain ⟨hstopped, hnone⟩ := h.resolved hresolved
  exact ⟨hnone, h.idle hstopped⟩

theorem inv_fresh : Inv ({} : JobWorker ν τ) :=
  ⟨fun _ => rfl, fun _ => rfl, by simp, by simp, by simp, by simp, List.Pairwise.nil⟩

theorem Inv.calm {w w' : JobWorker ν τ} (h : Inv w) (hcalm : Calm w w') : Inv w' where
  called := by
    rw [hcalm.stopped, hcalm.stopPhase]
    exact h.called
  idle := by
    rw [hcalm.stopped, hcalm.launching]
    exact h.idle
  racing := by
    intro snapshot timedOut hphase run' hrun'
    obtain ⟨run, hrun, heq⟩ := hcalm.inFlight run' hrun'
    rw [← heq]
    exact h.racing snapshot timedOut (hcalm.stopPhase ▸ hphase) run hrun
  unwinding := by
    intro snapshot hphase run' hrun'
    obtain ⟨run, hrun, heq⟩ := hcalm.inFlight run' hrun'
    rw [← heq]
    exact h.unwinding snapshot (hcalm.stopPhase ▸ hphase) run hrun
  resolved := by
    intro hphase
    obtain ⟨hstopped, hnone⟩ := h.resolved (hcalm.stopPhase ▸ hphase)
    refine ⟨hcalm.stopped.trans hstopped, List.eq_nil_iff_forall_not_mem.mpr ?_⟩
    intro run' hrun'
    obtain ⟨run, hrun, -⟩ := hcalm.inFlight run' hrun'
    rw [hnone] at hrun
    simp at hrun
  announced := by
    rw [hcalm.events, hcalm.stopPhase]
    exact h.announced
  ordered := hcalm.events ▸ h.ordered

theorem Inv.launch {w : JobWorker ν τ} (h : Inv w) (hrunning : w.stopped = false)
    (caller : ClaimCaller) (job : Job ν τ) : Inv (w.launch opts caller job) := by
  have hphase := h.called hrunning
  have hsilent : .stopResolved ∉ w.events := by
    intro hmem
    rw [h.announced hmem] at hphase
    simp at hphase
  have hfields (launching : Option (ClaimCaller × InFlightJob ν τ)) (n : ℕ)
      (events : List WorkerEvent) (hannounced : .stopResolved ∉ events)
      (hordered : events.Pairwise fun before after =>
        before = .stopResolved → ∀ entry, after ≠ .handlerStarted entry) :
      Inv { w with launching := launching, nextEntry := n, events := events } := by
    refine ⟨h.called, ?_, h.racing, h.unwinding, h.resolved, ?_, hordered⟩
    · intro hstopped
      rw [hrunning] at hstopped
      simp at hstopped
    · intro hmem
      exact absurd hmem hannounced
  unfold JobWorker.launch
  dsimp only
  split
  · refine hfields _ _ _ (by simpa using hsilent) ?_
    refine List.pairwise_append.mpr ⟨h.ordered, List.pairwise_singleton _ _, ?_⟩
    rintro before hbefore after - rfl
    exact absurd hbefore hsilent
  · exact hfields _ _ _ hsilent h.ordered

theorem Inv.launched {w : JobWorker ν τ} (h : Inv w) {caller : ClaimCaller} {run : InFlightJob ν τ}
    (hlaunching : w.launching.isSome = true) : Inv (w.launched opts caller run) := by
  have hrunning : w.stopped = false := by
    by_contra hstopped
    rw [h.idle (by simpa using hstopped)] at hlaunching
    simp at hlaunching
  have hphase := h.called hrunning
  have hflying : Inv { w with launching := none, inFlight := w.inFlight ++ [run] } := by
    refine ⟨h.called, fun _ => rfl, ?_, ?_, ?_, h.announced, h.ordered⟩
    · intro snapshot timedOut hracing
      simp [hphase] at hracing
    · intro snapshot hunwinding
      simp [hphase] at hunwinding
    · intro hresolved
      simp [hphase] at hresolved
  unfold JobWorker.launched
  cases caller with
  | drain => exact hflying.calm (calm_drainTurn _)
  | runOnce => exact hflying

theorem Inv.resolveStop {w : JobWorker ν τ} (h : Inv w) (hstopped : w.stopped = true)
    (hnone : w.inFlight = []) : Inv w.resolveStop := by
  refine ⟨?_, h.idle, ?_, ?_, ?_, fun _ => rfl, ?_⟩
  · intro hrunning
    exact absurd (hstopped.symm.trans hrunning) (by simp)
  · intro snapshot timedOut hphase
    simp [JobWorker.resolveStop] at hphase
  · intro snapshot hphase
    simp [JobWorker.resolveStop] at hphase
  · intro _
    exact ⟨hstopped, hnone⟩
  · refine List.pairwise_append.mpr ⟨h.ordered, List.pairwise_singleton _ _, ?_⟩
    intro before _ after hafter _ entry
    obtain rfl := List.mem_singleton.mp hafter
    simp

theorem Inv.stop {w : JobWorker ν τ} (h : Inv w)
    (hspares : w.stopped = false → w.launching.isSome = false) : Inv w.stop := by
  unfold JobWorker.stop
  split
  · exact h
  · next hrunning =>
    rw [Bool.not_eq_true] at hrunning
    have hphase := h.called hrunning
    have hidle : w.launching = none := by simpa using hspares hrunning
    have hnever : .stopResolved ∉ w.events := by
      intro hmem
      rw [h.announced hmem] at hphase
      simp at hphase
    dsimp only
    split
    · next hnone =>
      -- nothing is in flight: the promise resolves at once
      refine ⟨?_, fun _ => hidle, ?_, ?_, fun _ => ⟨rfl, hnone⟩, fun _ => rfl, ?_⟩
      · intro hstopped
        simp [JobWorker.resolveStop] at hstopped
      · intro snapshot timedOut hracing
        simp [JobWorker.resolveStop] at hracing
      · intro snapshot hunwinding
        simp [JobWorker.resolveStop] at hunwinding
      · refine List.pairwise_append.mpr ⟨h.ordered, List.pairwise_singleton _ _, ?_⟩
        intro before _ after hafter _ entry
        obtain rfl := List.mem_singleton.mp hafter
        simp
    · refine ⟨?_, fun _ => hidle, ?_, ?_, ?_, fun hmem => absurd hmem hnever, h.ordered⟩
      · intro hstopped
        simp at hstopped
      · intro snapshot timedOut hracing run hrun
        obtain ⟨rfl, -⟩ := StopPhase.racing.inj hracing
        exact List.mem_map_of_mem hrun
      · intro snapshot hunwinding
        simp at hunwinding
      · intro hresolved
        simp at hresolved

theorem inFlight_eq_nil {w : JobWorker ν τ} {snapshot : List ℕ}
    (hcovered : ∀ run ∈ w.inFlight, run.entry ∈ snapshot) (hsettled : w.settledAll snapshot = true) :
    w.inFlight = [] := by
  rw [List.eq_nil_iff_forall_not_mem]
  intro run hrun
  have hgone := List.all_eq_true.mp hsettled run hrun
  simp [hcovered run hrun] at hgone

theorem Inv.stopResumes {w w' : JobWorker ν τ} (h : Inv w) (hs : w.stopResumes = some w') :
    Inv w' := by
  have hstopped (hphase : w.stopPhase ≠ .notCalled) : w.stopped = true := by
    by_contra hrunning
    exact hphase (h.called (by simpa using hrunning))
  unfold JobWorker.stopResumes at hs
  split at hs
  · next snapshot timedOut hphase =>
    have hdone := hstopped (by simp [hphase])
    split at hs
    · next hwaited =>
      split at hs
      · obtain rfl := Option.some.inj hs
        refine ⟨?_, h.idle, ?_, ?_, ?_, ?_, h.ordered⟩
        · intro hrunning
          exact absurd (hdone.symm.trans hrunning) (by simp)
        · intro snapshot' timedOut' hracing
          simp at hracing
        · intro snapshot' hunwinding run hrun
          obtain rfl := StopPhase.unwinding.inj hunwinding
          obtain ⟨old, hold, rfl⟩ := List.mem_map.mp hrun
          exact List.mem_map.mpr ⟨old, hold, rfl⟩
        · intro hresolved
          simp at hresolved
        · intro hmem
          have hresolved := h.announced hmem
          rw [hphase] at hresolved
          simp at hresolved
      · next hempty =>
        obtain rfl := Option.some.inj hs
        refine h.resolveStop hdone ?_
        rcases hwaited with htimedOut | hsettled
        · by_contra hnonempty
          exact hempty ⟨htimedOut, hnonempty⟩
        · exact inFlight_eq_nil (h.racing snapshot timedOut hphase) hsettled
    · simp at hs
  · next snapshot hphase =>
    split at hs
    · next hsettled =>
      obtain rfl := Option.some.inj hs
      exact h.resolveStop (hstopped (by simp [hphase]))
        (inFlight_eq_nil (h.unwinding snapshot hphase) hsettled)
    · simp at hs
  · simp at hs

/-! ## Steps and runs -/

theorem calm_claims (w : JobWorker ν τ) (claims : List (ClaimCaller × ClaimNext ν τ)) :
    Calm w { w with claims := claims } :=
  ⟨rfl, rfl, rfl, rfl, fun run hrun => ⟨run, hrun, rfl⟩⟩

theorem inv_resume {w w' : JobWorker ν τ} {caller : ClaimCaller} {claim : ClaimNext ν τ} (h : Inv w)
    (hspares : w.stopped = true → ∀ job, claim ≠ .answered (some job))
    (hs : w.resume opts caller claim = some w') : Inv w' := by
  have hnothing (hs : w.resume opts caller .threw = some w') : Inv w' := by
    cases caller with
    | drain =>
      obtain rfl := Option.some.inj hs
      exact h.calm (calm_drainBreaks w)
    | runOnce =>
      obtain rfl := Option.some.inj hs
      exact h
  cases claim with
  | answered job =>
    cases job with
    | none => exact hnothing hs
    | some job =>
      have hrunning : w.stopped = false := by
        by_contra hstopped
        exact hspares (by simpa using hstopped) job rfl
      obtain rfl := Option.some.inj hs
      exact h.launch hrunning caller job
  | threw => exact hnothing hs
  | takingReaped queues => simp [resume] at hs
  | reporting hooks queues => simp [resume] at hs
  | claiming queues => simp [resume] at hs

theorem inv_received {w w' : JobWorker ν τ} {i : WorkerInput ν τ} (h : Inv w)
    (hspares : Spares w (.input i)) (hs : w.received opts i = some w') : Inv w' := by
  cases i with
  | pollFires =>
    simp only [received, Option.ite_none_right_eq_some, Option.some.injEq] at hs
    obtain ⟨-, rfl⟩ := hs
    have hfired : Calm w { w with pollTimer := false } :=
      ⟨rfl, rfl, rfl, rfl, fun run hrun => ⟨run, hrun, rfl⟩⟩
    exact h.calm (hfired.trans (calm_tick _))
  | claimSettles i answer =>
    obtain ⟨claim, -, hnext⟩ := Option.bind_eq_some_iff.mp hs
    obtain ⟨next, -, rfl⟩ := Option.map_eq_some_iff.mp hnext
    exact h.calm (calm_claims w _)
  | claimResumes i =>
    obtain ⟨⟨caller, claim⟩, hclaim, hresume⟩ := Option.bind_eq_some_iff.mp hs
    refine inv_resume (h.calm (calm_claims w (w.claims.eraseIdx i))) ?_ hresume
    rintro hstopped job rfl
    have hnone := hspares hstopped
    simp [hasJob, hclaim] at hnone
  | handlerEnds entry how =>
    refine h.calm (calm_updateRun ?_ hs)
    intro run run' hrun
    split at hrun
    · obtain rfl := Option.some.inj hrun
      exact entry_handled run how
    · simp at hrun
  | storeEnds entry how =>
    exact h.calm (calm_updateRun (fun run run' hrun => entry_stored hrun) hs)
  | hookSettles entry =>
    exact h.calm (calm_updateRun (fun run run' hrun => entry_hooked hrun) hs)
  | runSettles entry =>
    simp only [received, Option.ite_none_right_eq_some, Option.some.injEq] at hs
    obtain ⟨-, rfl⟩ := hs
    exact h.calm ⟨rfl, rfl, rfl, rfl, fun run hrun => ⟨run, (List.mem_filter.mp hrun).1, rfl⟩⟩
  | timeoutFires entry =>
    refine h.calm (calm_updateRun ?_ hs)
    intro run run' hrun
    split at hrun
    · obtain rfl := Option.some.inj hrun
      rfl
    · simp at hrun
  | leaseLost entry =>
    refine h.calm (calm_updateRun ?_ hs)
    intro run run' hrun
    obtain rfl := Option.some.inj hrun
    rfl
  | graceElapses =>
    unfold received at hs
    dsimp only at hs
    split at hs
    · next snapshot timedOut hphase =>
      obtain rfl := Option.some.inj hs
      refine ⟨?_, h.idle, ?_, ?_, ?_, ?_, h.ordered⟩
      · intro hrunning
        have := h.called hrunning
        simp [hphase] at this
      · intro snapshot' timedOut' hracing
        obtain ⟨rfl, -⟩ := StopPhase.racing.inj hracing
        exact h.racing snapshot timedOut hphase
      · intro snapshot' hunwinding
        simp at hunwinding
      · intro hresolved
        simp at hresolved
      · intro hmem
        have hresolved := h.announced hmem
        simp [hphase] at hresolved
    · simp at hs
  | stopResumes => exact h.stopResumes hs

theorem inv_step (w : JobWorker ν τ) (l : WorkerStep ν τ) (w' : JobWorker ν τ)
    (hspares : Spares w l) (h : Inv w) (hs : w.step opts l = some w') : Inv w' := by
  cases l with
  | call c =>
    obtain rfl := Option.some.inj hs
    cases c with
    | start =>
      rw [called]
      split
      · exact h
      · have hstarted : Calm w { w with started := true } :=
          ⟨rfl, rfl, rfl, rfl, fun run hrun => ⟨run, hrun, rfl⟩⟩
        exact h.calm (hstarted.trans (calm_arm _))
    | runOnce => exact h.calm (calm_claims w _)
    | stop graceMs =>
      cases graceMs with
      | nonInteger => exact h
      | integer n =>
        rw [called]
        split
        · exact h
        · exact h.stop hspares
  | launchReturns threw =>
    obtain ⟨launch, hlaunch, rfl⟩ := Option.map_eq_some_iff.mp hs
    exact h.launched (by simp [hlaunch])
  | input i =>
    simp only [step, Option.ite_none_left_eq_some] at hs
    exact inv_received h hspares hs.2

/-- **Once the promise of `stop` has resolved nothing runs**, in every run that launches nothing
behind `stop`. -/
theorem stopped_runs_nothing (opts : JobWorkerOptions) (steps : List (WorkerStep ν τ))
    (w : JobWorker ν τ) (hspares : AllSteps (step opts) Spares {} steps)
    (hrun : run (step opts) {} steps = some w) : RunsNothing w :=
  (run_invariant inv_step inv_fresh hspares hrun).runsNothing

/-- A worker whose registry has the handler of the sample job, over a store without `takeReaped`. -/
def sampleOptions : JobWorkerOptions :=
  { handles := fun name => name = js "mail", storeTakesReaped := false }

/-- A job is claimed and started, `stop` waits for it, and its promise resolves behind it. -/
theorem stopped_runs_nothing_drained :
    ∃ w : JobWorker ℕ ℤ, run (step sampleOptions) {}
        [.call .start, .input .pollFires, .input (.claimSettles 0 (.job (some sampleJob))),
          .input (.claimResumes 0), .launchReturns none, .call (.stop (.integer 5000)),
          .input (.handlerEnds 0 (.returned true)), .input (.storeEnds 0 .accepted),
          .input (.hookSettles 0), .input (.runSettles 0), .input .stopResumes] = some w ∧
      w.events = [.handlerStarted 0, .stopResolved] ∧ RunsNothing w := by
  have hrun : (run (step sampleOptions) ({} : JobWorker ℕ ℤ)
      [.call .start, .input .pollFires, .input (.claimSettles 0 (.job (some sampleJob))),
        .input (.claimResumes 0), .launchReturns none, .call (.stop (.integer 5000)),
        .input (.handlerEnds 0 (.returned true)), .input (.storeEnds 0 .accepted),
        .input (.hookSettles 0), .input (.runSettles 0), .input .stopResumes]).map (·.events) =
      some [.handlerStarted 0, .stopResolved] := by decide
  obtain ⟨w, hw, hevents⟩ := Option.map_eq_some_iff.mp hrun
  exact ⟨w, hw, hevents, stopped_runs_nothing sampleOptions _ w (by decide) hw⟩

/-- `stop` is called while a claim awaits the store, and resolves; the store answers the claim with a
job, and its handler starts. -/
theorem job_after_stop :
    ∃ w : JobWorker ℕ ℤ, run (step sampleOptions) {}
        [.call .start, .input .pollFires, .call (.stop (.integer 5000)),
          .input (.claimSettles 0 (.job (some sampleJob))), .input (.claimResumes 0),
          .launchReturns none] = some w ∧
      w.events = [.stopResolved, .handlerStarted 0] ∧ ¬ RunsNothing w := by
  have hrun : (run (step sampleOptions) ({} : JobWorker ℕ ℤ)
      [.call .start, .input .pollFires, .call (.stop (.integer 5000)),
        .input (.claimSettles 0 (.job (some sampleJob))), .input (.claimResumes 0),
        .launchReturns none]).map (·.events) = some [.stopResolved, .handlerStarted 0] := by
    decide
  obtain ⟨w, hw, hevents⟩ := Option.map_eq_some_iff.mp hrun
  refine ⟨w, hw, hevents, ?_⟩
  intro h
  have hordered := h.events
  rw [hevents] at hordered
  simp at hordered

end JobWorker

end Daloy.Jobs
