import Daloy.Foundations.JsMap
import Daloy.Foundations.Runs
import Mathlib.Algebra.Ring.Int.Defs

/-! # The scheduler

The class `Scheduler` of `src/scheduler.ts` from `start()` on, as a machine whose labels are what may
happen next: a timer of a task fires, a method is called, a handler comes back, a run settles, and
the promise that `stop` awaits.

* A run is `starting` while the synchronous part of its handler is executed. These parts nest: the
  code of a handler may call `runNow`, and with it another handler. Until they have all come back
  nothing happens that needs an event of its own (`stack`); methods may be called at any time.
* A timer that was cleared does not fire, and setting one does not fail. The time of the next tick
  is part of the label, `none` when `nextCronRun` finds none and throws.
* A run's promise is rejected when reporting the handler's error throws; `rejects` says so.
* Left out: the timeout of a run, which only aborts its signal, and the statistics of its duration.
-/

namespace Daloy.Scheduling
set_option autoImplicit false

/-! ## Tasks and runs -/

inductive Trigger
  | tick
  | manual
  deriving DecidableEq

/-- Where a run stands: in the synchronous part of its handler, awaiting it, or settled. -/
inductive Phase
  | starting
  | pending
  | fulfilled
  | rejected
  deriving DecidableEq

def Phase.inProgress : Phase → Bool
  | .starting | .pending => true
  | .fulfilled | .rejected => false

structure Run (κ : Type) where
  task : κ
  trigger : Trigger
  runCount : ℕ
  scheduledFor : ℤ
  phase : Phase
  deriving DecidableEq

/-- `RegisteredTask`; timers and runs are given by their numbers. `armed` is set by the first call of
`#arm` for the task that returns; no method reads it. -/
structure RegisteredTask where
  runOnStart : Bool
  timer : Option ℕ := none
  running : Bool := false
  current : Option ℕ := none
  runs : ℕ := 0
  failures : ℕ := 0
  skipped : ℕ := 0
  nextRunAt : Option ℤ := none
  armed : Bool := false
  deriving DecidableEq

/-- How far the call of `stop` has got: it awaits its race, then the runs it aborted. -/
inductive Stopping
  | notCalled
  | racing (runs : List ℕ) (timedOut : Bool)
  | unwinding (stuck : List ℕ)
  | resolved
  | rejected
  deriving DecidableEq

structure Scheduler (κ : Type) where
  tasks : JsMap κ RegisteredTask := ∅
  stopped : Bool := false
  runs : List (Run κ) := []
  /-- The timers that are pending, with the task each ticks for. -/
  timers : List (ℕ × κ) := []
  nextTimer : ℕ := 0
  /-- The runs in the synchronous part of their handler, the innermost first. -/
  stack : List ℕ := []
  stopping : Stopping := .notCalled

variable {κ : Type} [DecidableEq κ]

namespace Scheduler

def task? (s : Scheduler κ) (name : κ) : Option RegisteredTask := s.tasks.get? name

def modifyTask (s : Scheduler κ) (name : κ) (f : RegisteredTask → RegisteredTask) : Scheduler κ :=
  { s with tasks := s.tasks.modify name f }

def setPhase (s : Scheduler κ) (run : ℕ) (phase : Phase) : Scheduler κ :=
  { s with runs := s.runs.modify run fun r => { r with phase } }

/-- `this.#timers.set(..)` for the next tick at `at`, the number of its timer kept in the task. -/
def setTimer (s : Scheduler κ) (name : κ) (nextRunAt : ℤ) : Scheduler κ :=
  { s.modifyTask name fun t =>
      { t with timer := some s.nextTimer, nextRunAt := some nextRunAt, armed := true } with
    timers := s.timers ++ [(s.nextTimer, name)]
    nextTimer := s.nextTimer + 1 }

/-- `#arm(task, immediate)` at the time `now`; `none` when it throws. -/
def arm (s : Scheduler κ) (name : κ) (immediate : Bool) (now : ℤ) (delay : Option ℕ) :
    Option (Scheduler κ) :=
  if s.stopped then some s
  else if immediate then some (s.setTimer name now)
  else delay.map fun delay => s.setTimer name (now + delay)

/-- `#run(task, scheduledFor)` up to the call of the handler. -/
def run (s : Scheduler κ) (name : κ) (task : RegisteredTask) (trigger : Trigger)
    (scheduledFor : ℤ) : Scheduler κ :=
  { s.modifyTask name fun t => { t with running := true } with
    runs := s.runs ++ [⟨name, trigger, task.runs + 1, scheduledFor, .starting⟩]
    stack := s.runs.length :: s.stack }

def skip (s : Scheduler κ) (name : κ) : Scheduler κ :=
  s.modifyTask name fun t => { t with skipped := t.skipped + 1 }

/-- `#tick(task)`, behind the timer that has fired. -/
def tick (s : Scheduler κ) (name : κ) (now : ℤ) (delay : Option ℕ) : Scheduler κ :=
  let s := s.modifyTask name fun t => { t with timer := none }
  match s.task? name with
  | none => s
  | some task =>
    if s.stopped then s
    else match s.arm name false now delay with
      | none => s
      | some s =>
        if task.running then s.skip name
        else s.run name task .tick (task.nextRunAt.getD now)

/-- `define(def, handler)`, for a definition that is well formed. -/
def define (s : Scheduler κ) (name : κ) (runOnStart : Bool) (now : ℤ) (delay : Option ℕ) :
    Scheduler κ :=
  if (s.task? name).isSome then s
  else
    let s := { s with tasks := s.tasks.set name { runOnStart } }
    (s.arm name runOnStart now delay).getD s

def runNow (s : Scheduler κ) (name : κ) (now : ℤ) : Scheduler κ :=
  match s.task? name with
  | none => s
  | some task => if task.running then s.skip name else s.run name task .manual now

/-- `inflight()`, by the runs that the tasks hold as `current`. -/
def inflight (s : Scheduler κ) : List ℕ := s.tasks.values.filterMap RegisteredTask.current

/-- `stop(graceMs)` up to its first `await`. -/
def stop (s : Scheduler κ) : Scheduler κ :=
  let cleared := s.tasks.values.filterMap RegisteredTask.timer
  let s := { s with
    stopped := true
    tasks := s.tasks.mapValues fun t => { t with timer := none, nextRunAt := none }
    timers := s.timers.filter fun timer => timer.1 ∉ cleared }
  { s with stopping := if s.inflight = [] then .resolved else .racing s.inflight false }

/-- The handler of the innermost run returns a promise, or a value that is awaited. -/
def handlerReturns (s : Scheduler κ) (run : ℕ) (name : κ) : Scheduler κ :=
  { (s.setPhase run .pending).modifyTask name fun t => { t with current := some run } with
    stack := s.stack.tail }

def settled (rejects : Bool) : Phase := if rejects then .rejected else .fulfilled

/-- It throws before it returns: `finally` is through when the run becomes `current`. -/
def handlerThrows (s : Scheduler κ) (run : ℕ) (name : κ) (rejects : Bool) : Scheduler κ :=
  { (s.setPhase run (settled rejects)).modifyTask name fun t =>
      { t with
        failures := t.failures + 1
        runs := t.runs + 1
        running := false
        current := some run } with
    stack := s.stack.tail }

/-- What the handler returned settles: `catch`, if it failed, and `finally`. -/
def settle (s : Scheduler κ) (run : ℕ) (name : κ) (failed rejects : Bool) : Scheduler κ :=
  (s.setPhase run (settled rejects)).modifyTask name fun t =>
    { t with
      failures := if failed then t.failures + 1 else t.failures
      runs := t.runs + 1
      running := false
      current := none }

def phase? (s : Scheduler κ) (run : ℕ) : Option Phase := (s.runs[run]?).map Run.phase

/-- `stop` behind its race: with the deadline over, what is in flight is aborted and awaited. -/
def afterRace (s : Scheduler κ) (timedOut : Bool) : Stopping :=
  if timedOut ∧ s.inflight ≠ [] then .unwinding s.inflight else .resolved

end Scheduler

/-! ## What happens next -/

inductive Label (κ : Type)
  | define (name : κ) (runOnStart : Bool) (now : ℤ) (delay : Option ℕ)
  | runNow (name : κ) (now : ℤ)
  | stop
  | fire (timer : ℕ) (now : ℤ) (delay : Option ℕ)
  | handlerReturns
  | handlerThrows (rejects : Bool)
  | settle (run : ℕ) (failed rejects : Bool)
  /-- The timer of the grace period. -/
  | deadline
  /-- The promise that `stop` awaits is fulfilled, or was caught. -/
  | stopResumes
  /-- The race is lost to a run whose promise was rejected. -/
  | stopThrows

namespace Scheduler

/-- `Promise.all` of the runs is fulfilled. -/
def allFulfilled (s : Scheduler κ) (runs : List ℕ) : Bool :=
  runs.all fun run => s.phase? run = some .fulfilled

/-- `Promise.all` of the runs is rejected, as soon as one of them is. -/
def someRejected (s : Scheduler κ) (runs : List ℕ) : Bool :=
  runs.any fun run => s.phase? run = some .rejected

def step (s : Scheduler κ) : Label κ → Option (Scheduler κ)
  | .define name runOnStart now delay => some (s.define name runOnStart now delay)
  | .runNow name now => some (s.runNow name now)
  -- one call
  | .stop => if s.stopping = .notCalled then some s.stop else none
  | .fire timer now delay =>
    if s.stack ≠ [] then none
    else (s.timers.lookup timer).map fun name =>
      { s with timers := s.timers.filter fun t => t.1 ≠ timer }.tick name now delay
  | .handlerReturns =>
    match s.stack with
    | [] => none
    | run :: _ => (s.runs[run]?).map fun r => s.handlerReturns run r.task
  | .handlerThrows rejects =>
    match s.stack with
    | [] => none
    | run :: _ => (s.runs[run]?).map fun r => s.handlerThrows run r.task rejects
  | .settle run failed rejects =>
    if s.stack ≠ [] ∨ (rejects ∧ ¬ failed) then none
    else match s.runs[run]? with
      | none => none
      | some r => if r.phase = .pending then some (s.settle run r.task failed rejects) else none
  | .deadline =>
    match s.stopping with
    | .racing runs false => if s.stack = [] then some { s with stopping := .racing runs true } else none
    | _ => none
  | .stopResumes =>
    match s.stopping with
    | .racing runs timedOut =>
      if s.stack = [] ∧ (timedOut ∨ s.allFulfilled runs) then
        some { s with stopping := s.afterRace timedOut }
      else none
    | .unwinding stuck =>
      if s.stack = [] ∧ (s.allFulfilled stuck ∨ s.someRejected stuck) then
        some { s with stopping := .resolved }
      else none
    | _ => none
  | .stopThrows =>
    match s.stopping with
    | .racing runs _ =>
      if s.stack = [] ∧ s.someRejected runs then some { s with stopping := .rejected } else none
    | _ => none

/-! ## The start -/

/-- What `define` was given for a task, and the time of its first tick. -/
structure Definition where
  runOnStart : Bool
  delay : Option ℕ

/-- The loop of `start()` over the tasks; it ends with the first that cannot be armed. -/
def armAll (s : Scheduler κ) (now : ℤ) : List (κ × Definition) → Scheduler κ
  | [] => s
  | (name, d) :: defs =>
    match s.arm name d.runOnStart now d.delay with
    | none => s
    | some s => s.armAll now defs

/-- The scheduler before `start()`. -/
def defined (defs : JsMap κ Definition) : Scheduler κ where
  tasks := ⟨defs.entries.map fun d => (d.1, { runOnStart := d.2.runOnStart }), by
    have hnodup := defs.nodup
    rwa [List.map_map]⟩

/-- The scheduler when `start()` is over, at the time `now`, with these tasks. -/
def started (defs : JsMap κ Definition) (now : ℤ) : Scheduler κ :=
  (defined defs).armAll now defs.entries

end Scheduler

end Daloy.Scheduling
