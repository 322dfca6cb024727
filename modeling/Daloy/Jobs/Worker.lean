import Daloy.Jobs.Queue

/-! # `createJobWorker`

The worker of `src/jobs.ts`, as a machine that moves from one `await` to the next. The drain loop and
every `runOnce` are callers of `claimNext`, each stopped at one of its awaits; every launched job is
a run of `execute`, stopped at one of its own; `stop` waits for runs. What the store, the handlers,
the hooks and the timers do is part of the step. Application code runs while a handler is being
started and between steps, and may call `stop` and `runOnce` there.
-/

namespace Daloy.Jobs
set_option autoImplicit false

open Daloy.Unicode

variable {ν τ : Type}

/-- What the constructor was given, as far as the machine depends on it. -/
structure JobWorkerOptions where
  /-- The names in the handler registry. -/
  handles : JsString → Bool
  queues : List JsString := [js "default"]
  concurrency : ℕ := 1
  storeTakesReaped : Bool := true
  concurrency_pos : 1 ≤ concurrency := by decide
  concurrency_le : concurrency ≤ 1000 := by decide

/-! ## `claimNext` -/

/-- Who awaits a `claimNext()`. -/
inductive ClaimCaller
  | drain
  | runOnce
  deriving DecidableEq

/-- Where a `claimNext()` stands: asking the store for reaped jobs of the first queue left, reporting
them to the hooks, asking it for a job of the first queue left, or settled, with its caller not yet
resumed. -/
inductive ClaimNext (ν τ : Type)
  | takingReaped (queues : List JsString)
  | reporting (hooks : ℕ) (queues : List JsString)
  | claiming (queues : List JsString)
  | answered (job : Option (Job ν τ))
  | threw

/-- What the store answers to a `claimNext()`. -/
inductive ClaimAnswer (ν τ : Type)
  | reaped (jobs : ℕ)
  | takeReapedFailed
  | hookSettled
  | job (job : Option (Job ν τ))
  | claimFailed

namespace ClaimNext

def claimFrom : List JsString → ClaimNext ν τ
  | [] => .answered none
  | queues => .claiming queues

/-- `reportReaped()`, from the given queues on, and the loop behind it. -/
def reportFrom (opts : JobWorkerOptions) : List JsString → ClaimNext ν τ
  | [] => claimFrom opts.queues
  | queues => .takingReaped queues

/-- A call of `claimNext()`, up to its first `await`. -/
def start (opts : JobWorkerOptions) : ClaimNext ν τ :=
  if opts.storeTakesReaped then reportFrom opts opts.queues else claimFrom opts.queues

def settle (opts : JobWorkerOptions) : ClaimNext ν τ → ClaimAnswer ν τ → Option (ClaimNext ν τ)
  | .takingReaped (_ :: queues), .reaped jobs =>
    -- `onFail` and `onDead` for each of them
    some (if jobs = 0 then reportFrom opts queues else .reporting (2 * jobs) queues)
  | .takingReaped (_ :: queues), .takeReapedFailed => some (reportFrom opts queues)
  | .reporting hooks queues, .hookSettled =>
    some (if hooks ≤ 1 then reportFrom opts queues else .reporting (hooks - 1) queues)
  | .claiming (_ :: _), .job (some job) => some (.answered (some job))
  | .claiming (_ :: queues), .job none => some (claimFrom queues)
  | .claiming (_ :: _), .claimFailed => some .threw
  | _, _ => none

end ClaimNext

/-! ## `execute` -/

/-- Where a run of `execute` stands: in the handler, in `store.complete`, in `store.fail`, or in the
hooks that are left; behind the last hook the entry leaves the set of jobs in flight. -/
inductive RunPhase
  | handling
  | completing
  | failing (willRetry : Bool)
  | hooking (left : ℕ)
  deriving DecidableEq

/-- An `InFlightJob` and the local state of its `execute`. -/
structure InFlightJob (ν τ : Type) where
  entry : ℕ
  job : Job ν τ
  phase : RunPhase
  aborted : Bool := false
  timedOut : Bool := false
  lostLease : Bool := false

/-- How a handler ends: its result can or cannot be serialized, or it throws, a `JobFatalError` or
another error. -/
inductive HandlerEnd
  | returned (serializable : Bool)
  | threw (fatal : Bool)
  deriving DecidableEq

inductive StoreEnd
  | accepted
  | rejected
  | threw
  deriving DecidableEq

namespace InFlightJob

/-- The `catch` of `execute`. -/
def caught (run : InFlightJob ν τ) (fatal : Bool) : InFlightJob ν τ :=
  if run.lostLease then { run with phase := .hooking 0 }
  else
    -- behind a timeout the error is the timeout's, which is not fatal
    let willRetry := !(fatal && !run.timedOut) && run.job.attempts < run.job.maxAttempts
    { run with phase := .failing willRetry }

/-- `execute` behind its handler. -/
def handled (run : InFlightJob ν τ) : HandlerEnd → InFlightJob ν τ
  | .threw fatal => run.caught fatal
  | .returned serializable =>
    if run.aborted then run.caught false
    else if serializable then { run with phase := .completing }
    else run.caught false

/-- `execute` behind `store.complete` or `store.fail`. -/
def stored (run : InFlightJob ν τ) (how : StoreEnd) : Option (InFlightJob ν τ) :=
  match run.phase with
  | .completing =>
    match how with
    | .accepted => some { run with phase := .hooking 1 }
    | .rejected => some { run with phase := .hooking 0 }
    | .threw => some (run.caught false)
  | .failing willRetry =>
    match how with
    | .accepted => some { run with phase := .hooking (if willRetry then 1 else 2) }
    | .rejected | .threw => some { run with phase := .hooking 0 }
  | _ => none

def hooked (run : InFlightJob ν τ) : Option (InFlightJob ν τ) :=
  match run.phase with
  | .hooking (left + 1) => some { run with phase := .hooking left }
  | _ => none

end InFlightJob

/-! ## The worker -/

/-- Where the first call of `stop` stands: the race against the deadline over the runs of its
snapshot, or the wait for the aborted runs. -/
inductive StopPhase
  | notCalled
  | racing (snapshot : List ℕ) (timedOut : Bool)
  | unwinding (snapshot : List ℕ)
  | resolved
  deriving DecidableEq

inductive WorkerEvent
  | handlerStarted (entry : ℕ)
  | stopResolved
  deriving DecidableEq

structure JobWorker (ν τ : Type) where
  started : Bool := false
  stopped : Bool := false
  pollTimer : Bool := false
  draining : Bool := false
  drainAgain : Bool := false
  claims : List (ClaimCaller × ClaimNext ν τ) := []
  /-- The run whose `execute` is at its synchronous start, and who launched it; it is not yet in
  flight. -/
  launching : Option (ClaimCaller × InFlightJob ν τ) := none
  inFlight : List (InFlightJob ν τ) := []
  nextEntry : ℕ := 0
  stopPhase : StopPhase := .notCalled
  events : List WorkerEvent := []

namespace JobWorker

variable (opts : JobWorkerOptions) (w : JobWorker ν τ)

def arm : JobWorker ν τ :=
  if w.stopped = true ∨ w.started = false then w else { w with pollTimer := true }

/-- The drain loop awaits `claimNext()`. -/
def drainClaims : JobWorker ν τ := { w with claims := w.claims ++ [(.drain, ClaimNext.start opts)] }

/-- The inner loop of `drainAvailable` has ended. -/
def drainBreaks : JobWorker ν τ :=
  if w.drainAgain = true ∧ w.stopped = false then
    let again := { w with drainAgain := false }
    if w.inFlight.length < opts.concurrency then again.drainClaims opts
    else { again with draining := false }
  else { w with draining := false }

/-- The condition of the inner loop of `drainAvailable`. -/
def drainTurn : JobWorker ν τ :=
  if w.stopped = false ∧ w.inFlight.length < opts.concurrency then w.drainClaims opts
  else w.drainBreaks opts

/-- `drainAvailable()`, up to its first `await`. -/
def drainAvailable : JobWorker ν τ :=
  if w.draining then { w with drainAgain := true }
  else { w with draining := true, drainAgain := false }.drainTurn opts

def tick : JobWorker ν τ := if w.stopped then w else w.arm.drainAvailable opts

/-- `launch(job)`, up to the code of the handler: a job without a handler, or with no attempt left,
fails at once. -/
def launch (caller : ClaimCaller) (job : Job ν τ) : JobWorker ν τ :=
  let run : InFlightJob ν τ := { entry := w.nextEntry, job, phase := .handling }
  if opts.handles job.name = true ∧ job.attempts ≤ job.maxAttempts then
    { w with
      launching := some (caller, run)
      nextEntry := w.nextEntry + 1
      events := w.events ++ [.handlerStarted w.nextEntry] }
  else { w with launching := some (caller, run.caught true), nextEntry := w.nextEntry + 1 }

/-- The caller of a `claimNext()` that has settled goes on. -/
def resume (caller : ClaimCaller) : ClaimNext ν τ → Option (JobWorker ν τ)
  | .answered (some job) => some (w.launch opts caller job)
  | .answered none | .threw =>
    match caller with
    | .drain => some (w.drainBreaks opts)
    | .runOnce => some w
  | _ => none

/-- The end of `launch(job)`: the entry is in flight, and a drain loop takes its next turn. -/
def launched (caller : ClaimCaller) (run : InFlightJob ν τ) : JobWorker ν τ :=
  let flying := { w with launching := none, inFlight := w.inFlight ++ [run] }
  match caller with
  | .drain => flying.drainTurn opts
  | .runOnce => flying

def settledAll (snapshot : List ℕ) : Bool := w.inFlight.all fun run => !snapshot.contains run.entry

def resolveStop : JobWorker ν τ :=
  { w with stopPhase := .resolved, events := w.events ++ [.stopResolved] }

/-- `stop(graceMs)` with a valid `graceMs`, up to its first `await`. -/
def stop : JobWorker ν τ :=
  if w.stopped then w
  else
    let stopping := { w with stopped := true, pollTimer := false }
    if w.inFlight = [] then stopping.resolveStop
    else { stopping with stopPhase := .racing (w.inFlight.map (·.entry)) false }

/-- `stop` behind one of its awaits. -/
def stopResumes : Option (JobWorker ν τ) :=
  match w.stopPhase with
  | .racing snapshot timedOut =>
    if timedOut = true ∨ w.settledAll snapshot = true then
      if timedOut = true ∧ w.inFlight ≠ [] then
        some { w with
          inFlight := w.inFlight.map fun run => { run with aborted := true }
          stopPhase := .unwinding (w.inFlight.map (·.entry)) }
      else some w.resolveStop
    else none
  | .unwinding snapshot => if w.settledAll snapshot = true then some w.resolveStop else none
  | _ => none

def updateRun (entry : ℕ) (f : InFlightJob ν τ → Option (InFlightJob ν τ)) : Option (JobWorker ν τ) :=
  ((w.inFlight.find? (·.entry = entry)).bind f).map fun run' =>
    { w with inFlight := w.inFlight.map fun run => if run.entry = entry then run' else run }

end JobWorker

/-! ## Steps -/

inductive WorkerCall
  | start
  | runOnce
  | stop (graceMs : NumberArg)

/-- What settles or fires while no code of the worker runs. -/
inductive WorkerInput (ν τ : Type)
  | pollFires
  | claimSettles (i : ℕ) (answer : ClaimAnswer ν τ)
  | claimResumes (i : ℕ)
  | handlerEnds (entry : ℕ) (how : HandlerEnd)
  | storeEnds (entry : ℕ) (how : StoreEnd)
  | hookSettles (entry : ℕ)
  | runSettles (entry : ℕ)
  | timeoutFires (entry : ℕ)
  /-- A heartbeat is refused, or fails for the third time. -/
  | leaseLost (entry : ℕ)
  | graceElapses
  | stopResumes

inductive WorkerStep (ν τ : Type)
  | call (c : WorkerCall)
  /-- The synchronous start of the run being launched ends; its handler may have thrown. -/
  | launchReturns (threw : Option Bool)
  | input (i : WorkerInput ν τ)

namespace JobWorker

variable (opts : JobWorkerOptions) (w : JobWorker ν τ)

def called : WorkerCall → JobWorker ν τ
  | .start => if w.stopped = true ∨ w.started = true then w else { w with started := true }.arm
  | .runOnce => { w with claims := w.claims ++ [(.runOnce, ClaimNext.start opts)] }
  | .stop .nonInteger => w
  | .stop (.integer graceMs) => if graceMs < 0 then w else w.stop

def launchedRun (run : InFlightJob ν τ) : Option Bool → InFlightJob ν τ
  | none => run
  | some fatal => if run.phase = .handling then run.caught fatal else run

def received : WorkerInput ν τ → Option (JobWorker ν τ)
  | .pollFires => if w.pollTimer then some ({ w with pollTimer := false }.tick opts) else none
  | .claimSettles i answer =>
    w.claims[i]?.bind fun claim =>
      (claim.2.settle opts answer).map fun next =>
        { w with claims := w.claims.set i (claim.1, next) }
  | .claimResumes i =>
    w.claims[i]?.bind fun claim =>
      { w with claims := w.claims.eraseIdx i }.resume opts claim.1 claim.2
  | .handlerEnds entry how =>
    w.updateRun entry fun run => if run.phase = .handling then some (run.handled how) else none
  | .storeEnds entry how => w.updateRun entry fun run => run.stored how
  | .hookSettles entry => w.updateRun entry fun run => run.hooked
  | .runSettles entry =>
    if w.inFlight.any fun run => run.entry = entry && run.phase = .hooking 0 then
      some { w with inFlight := w.inFlight.filter fun run => run.entry ≠ entry }
    else none
  | .timeoutFires entry =>
    w.updateRun entry fun run =>
      if 0 < run.job.timeoutMs then some { run with timedOut := true, aborted := true } else none
  | .leaseLost entry =>
    w.updateRun entry fun run => some { run with lostLease := true, aborted := true }
  | .graceElapses =>
    match w.stopPhase with
    | .racing snapshot _ => some { w with stopPhase := .racing snapshot true }
    | _ => none
  | .stopResumes => w.stopResumes

/-- One step; `none` when it cannot be taken where the worker stands. While a handler is being
started only application code runs. -/
def step : WorkerStep ν τ → Option (JobWorker ν τ)
  | .call c => some (w.called opts c)
  | .launchReturns threw =>
    w.launching.map fun launch => w.launched opts launch.1 (launchedRun launch.2 threw)
  | .input i => if w.launching.isSome then none else w.received opts i

end JobWorker

end Daloy.Jobs
