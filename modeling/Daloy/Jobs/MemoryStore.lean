import Daloy.Foundations.JsMap
import Daloy.Jobs.Record

/-! # `MemoryJobStore`

The in-memory store of `src/jobs.ts`, method by method. `now` is an argument of the methods that
take it and the reading of the store's own clock in the methods that ask for it (`put`, `list`).
-/

namespace Daloy.Jobs
set_option autoImplicit false

open Daloy.Unicode Daloy.Json Daloy.Security

structure MemoryJobStoreOptions where
  capacity : ℕ := 10000
  retentionMs : ℕ := 86400000
  deadRetentionMs : ℕ := 604800000
  capacity_pos : 0 < capacity := by decide

def maxReapedBuffer : ℕ := 1000

def leaseExpiredDeadMessage : JsString := js "lease expired after max attempts"

structure MemoryJobStore (ν τ : Type) [NumberText ν] where
  jobs : JsMap JsString (StoredJob ν τ) := ∅
  /-- `${queue}\0${idempotencyKey}` to job id. -/
  idem : JsMap JsString JsString := ∅
  reapedDead : List JsString := []

/-- What `fail` is told to do with a job that has attempts left. -/
inductive FailStatus
  | delayed
  | queued
  | dead
  deriving DecidableEq

def FailStatus.status : FailStatus → JobStatus
  | .delayed => .delayed
  | .queued => .queued
  | .dead => .dead

structure JobFilter where
  queue : Option JsString := none
  status : Option (List JobStatus) := none
  name : Option JsString := none
  tenant : Option JsString := none

def idemKey (queue key : JsString) : JsString := queue ++ 0 :: key

variable {ν τ : Type} [NumberText ν]

def StoredJob.idemKey? (job : StoredJob ν τ) : Option JsString :=
  job.idempotencyKey.map (idemKey job.queue)

variable [Clock τ]

/-! ## One record -/

namespace StoredJob

def expired (now : τ) (job : StoredJob ν τ) : Bool :=
  job.status = .running && job.leaseUntil.any (· < now)

def reapedToDeath (now : τ) (job : StoredJob ν τ) : Bool :=
  job.expired now && job.maxAttempts ≤ job.attempts

/-- The body of the loop of `#reapLeases`. -/
def reaped (now : τ) (job : StoredJob ν τ) : StoredJob ν τ :=
  if job.expired now then
    if job.maxAttempts ≤ job.attempts then
      { job with
        status := .dead, runAt := now, lastError := some leaseExpiredDeadMessage
        lockedBy := none, leaseUntil := none, updatedAt := now }
    else { job with status := .queued, lockedBy := none, leaseUntil := none, updatedAt := now }
  else job

/-- What `claim` does to the record it picks. -/
def claimed (workerId : JsString) (now : τ) (job : StoredJob ν τ) : StoredJob ν τ :=
  { job with
    status := .running, lockedBy := some workerId, leaseUntil := some (now + (job.leaseMs : τ))
    attempts := job.attempts + 1, updatedAt := now }

/-- What `complete` does to a record. -/
def completed (now : τ) (result : Json ν) (job : StoredJob ν τ) : StoredJob ν τ :=
  { job with
    status := .completed, completedAt := some now
    resultJson := match result.1 with
      | .null => none
      | _ => some result.text
    lockedBy := none, leaseUntil := none, updatedAt := now }

/-- What `fail` does to a record. -/
def failed (error : JsString) (nextStatus : FailStatus) (nextRunAt now : τ) (job : StoredJob ν τ) :
    StoredJob ν τ :=
  let released := { job with lastError := some error, lockedBy := none, leaseUntil := none }
  if job.maxAttempts ≤ job.attempts then
    { released with status := .dead, runAt := now, updatedAt := now }
  else
    { released with
      status := nextStatus.status
      runAt := if nextStatus = .delayed then nextRunAt else now
      updatedAt := now }

/-- What `cancel` does to a record. -/
def cancelled (now : τ) (job : StoredJob ν τ) : StoredJob ν τ :=
  { job with status := .cancelled, lockedBy := none, leaseUntil := none, updatedAt := now }

/-- Whether `claim(queue, …, now)` may pick the record. -/
def runnable (queue : JsString) (now : τ) (job : StoredJob ν τ) : Bool :=
  job.queue = queue && (job.status = .queued || job.status = .delayed && job.runAt ≤ now)

def purgeable (opts : MemoryJobStoreOptions) (now : τ) (job : StoredJob ν τ) : Bool :=
  match job.status with
  | .dead => !decide (now - job.updatedAt ≤ ((opts.deadRetentionMs : ℤ) : τ))
  | .completed | .cancelled => !decide (now - job.updatedAt ≤ ((opts.retentionMs : ℤ) : τ))
  | _ => false

end StoredJob

/-! ## The methods -/

namespace MemoryJobStore

def pushReaped (reapedDead : List JsString) (id : JsString) : List JsString :=
  (if maxReapedBuffer ≤ reapedDead.length then reapedDead.drop 1 else reapedDead) ++ [id]

def reapLeases (s : MemoryJobStore ν τ) (now : τ) : MemoryJobStore ν τ :=
  { s with
    jobs := s.jobs.mapValues (StoredJob.reaped now)
    reapedDead := ((s.jobs.values.filter (StoredJob.reapedToDeath now)).map (·.id)).foldl
      pushReaped s.reapedDead }

def purgeExpiredTerminal (opts : MemoryJobStoreOptions) (s : MemoryJobStore ν τ) (now : τ) :
    MemoryJobStore ν τ :=
  let gone := s.jobs.values.filter (StoredJob.purgeable opts now)
  { s with
    jobs := (gone.map (·.id)).foldl JsMap.delete s.jobs
    idem := (gone.filterMap StoredJob.idemKey?).foldl JsMap.delete s.idem }

def ownedRunning (s : MemoryJobStore ν τ) (id workerId : JsString) (attempt : Option ℕ) :
    Option (StoredJob ν τ) :=
  (s.jobs.get? id).filter fun job =>
    job.status = .running && job.lockedBy = some workerId && attempt.all (job.attempts = ·)

/-- The sweep of a full store in `put`, and its error when that was not enough. -/
def makeRoom (opts : MemoryJobStoreOptions) (s : MemoryJobStore ν τ) (now : τ) :
    MemoryJobStore ν τ × Except JobError Unit :=
  if opts.capacity ≤ s.jobs.size then
    let swept := s.purgeExpiredTerminal opts now
    if opts.capacity ≤ swept.jobs.size then
      (swept, .error (.config .storeFull
        (js ("MemoryJobStore is at capacity (" ++ toString opts.capacity ++
          " jobs); refusing to drop queued work. " ++
          "Supply a durable JobStore for production volumes."))))
    else (swept, .ok ())
  else (s, .ok ())

/-- `#insert(job, payloadJson, now)` behind the capacity check, and the index entry of a key. -/
def insertNew (opts : MemoryJobStoreOptions) (s : MemoryJobStore ν τ) (job : Job ν τ) (now : τ) :
    MemoryJobStore ν τ × Except JobError (EnqueueResult ν τ) :=
  match s.makeRoom opts now with
  | (swept, .error e) => (swept, .error e)
  | (swept, .ok ()) =>
    let stored := StoredJob.inserted job job.payload.text now
    ({ swept with
        jobs := swept.jobs.set job.id stored
        idem := match job.idempotencyKey with
          | some key => swept.idem.set (idemKey job.queue key) job.id
          | none => swept.idem },
      .ok ⟨stored.clone, false⟩)

def put (opts : MemoryJobStoreOptions) (s : MemoryJobStore ν τ) (job : Job ν τ) (now : τ) :
    MemoryJobStore ν τ × Except JobError (EnqueueResult ν τ) :=
  match job.idempotencyKey with
  | none => s.insertNew opts job now
  | some key =>
    match s.idem.get? (idemKey job.queue key) with
    | none => s.insertNew opts job now
    | some existingId =>
      match s.jobs.get? existingId with
      -- a stale index entry: the record was swept
      | none => s.insertNew opts job now
      | some existing =>
        if existing.payloadJson.1 ≠ job.payload.text.1 then
          (s, .error (.idempotencyConflict key existingId))
        else (s, .ok ⟨existing.clone, true⟩)

/-- The body of the loop of `claim`. -/
def betterOf (queue : JsString) (now : τ) (best : Option (StoredJob ν τ)) (job : StoredJob ν τ) :
    Option (StoredJob ν τ) :=
  if job.runnable queue now && best.all (job.runsBefore ·) then some job else best

def pickRunnable (s : MemoryJobStore ν τ) (queue : JsString) (now : τ) : Option (StoredJob ν τ) :=
  s.jobs.values.foldl (betterOf queue now) none

def claim (s : MemoryJobStore ν τ) (queue workerId : JsString) (now : τ) :
    MemoryJobStore ν τ × Option (Job ν τ) :=
  let s := s.reapLeases now
  match s.pickRunnable queue now with
  | none => (s, none)
  | some best =>
    ({ s with jobs := s.jobs.modify best.id (StoredJob.claimed workerId now) },
      some (best.claimed workerId now).clone)

def heartbeat (s : MemoryJobStore ν τ) (id workerId : JsString) (leaseUntil now : τ)
    (attempt : Option ℕ) : MemoryJobStore ν τ × Bool :=
  match s.ownedRunning id workerId attempt with
  | none => (s, false)
  | some job =>
    if job.leaseUntil.any (· < now) then (s, false)
    else
      ({ s with
          jobs := s.jobs.modify id fun job =>
            { job with leaseUntil := some leaseUntil, updatedAt := now } }, true)

def complete (s : MemoryJobStore ν τ) (id workerId : JsString) (now : τ) (result : Json ν)
    (attempt : Option ℕ) : MemoryJobStore ν τ × Bool :=
  match s.ownedRunning id workerId attempt with
  | none => (s, false)
  | some _ => ({ s with jobs := s.jobs.modify id (StoredJob.completed now result) }, true)

def fail (s : MemoryJobStore ν τ) (id workerId error : JsString) (nextStatus : FailStatus)
    (nextRunAt now : τ) (attempt : Option ℕ) : MemoryJobStore ν τ × Bool :=
  match s.ownedRunning id workerId attempt with
  | none => (s, false)
  | some _ =>
    ({ s with jobs := s.jobs.modify id (StoredJob.failed error nextStatus nextRunAt now) }, true)

def cancel (s : MemoryJobStore ν τ) (id : JsString) (now : τ) : MemoryJobStore ν τ × Bool :=
  match s.jobs.get? id with
  | none => (s, false)
  | some job =>
    if job.status.terminal then (s, false)
    else ({ s with jobs := s.jobs.modify id (StoredJob.cancelled now) }, true)

def get (s : MemoryJobStore ν τ) (id : JsString) (now : τ) : MemoryJobStore ν τ × Option (Job ν τ) :=
  (s.reapLeases now, ((s.reapLeases now).jobs.get? id).map StoredJob.clone)

/-- Whether `list(filter)` returns the record. -/
def listed (filter : JobFilter) (job : StoredJob ν τ) : Bool :=
  filter.queue.all (job.queue = ·) && filter.status.all (·.contains job.status) &&
    filter.name.all (job.name = ·) && filter.tenant.all (job.tenant = some ·)

/-- The order of `list`: oldest first, then by id. -/
def inspectedBefore (a b : Job ν τ) : Bool :=
  if a.createdAt ≠ b.createdAt then a.createdAt < b.createdAt else !decide (b.id < a.id)

def list (s : MemoryJobStore ν τ) (filter : JobFilter) (now : τ) :
    MemoryJobStore ν τ × List (Job ν τ) :=
  let s := s.reapLeases now
  (s, ((s.jobs.values.filter (listed filter)).map StoredJob.clone).mergeSort inspectedBefore)

/-- `takeReaped(queue, now)`: reports of records that were purged since are dropped. -/
def takeReaped (s : MemoryJobStore ν τ) (queue : JsString) (now : τ) :
    MemoryJobStore ν τ × List (Job ν τ) :=
  let s := s.reapLeases now
  let present := s.reapedDead.filterMap fun id => (s.jobs.get? id).map fun job => (id, job)
  ({ s with reapedDead := (present.filter (·.2.queue ≠ queue)).map Prod.fst },
    (present.filter (·.2.queue = queue)).map (·.2.clone))

end MemoryJobStore

end Daloy.Jobs
