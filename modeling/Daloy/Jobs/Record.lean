import Daloy.Security.SafeJson
import Mathlib.Data.Int.Notation

/-! # Job records

The data of `src/jobs.ts`: the snapshots handed to callers, the records the memory store keeps, and
the errors of the engine. Times are over any type `τ` of clock readings; a payload is a JSON value
over any numbers `ν`.
-/

namespace Daloy.Jobs
set_option autoImplicit false

open Daloy.Unicode Daloy.Json Daloy.Security

inductive JobStatus
  | queued
  | delayed
  | running
  | completed
  | dead
  | cancelled
  deriving DecidableEq

def JobStatus.terminal : JobStatus → Bool
  | .completed | .dead | .cancelled => true
  | _ => false

/-- Clock readings, and the milliseconds added to and compared with them. -/
class Clock (τ : Type) extends Add τ, Sub τ, IntCast τ, LT τ, LE τ where
  decidableLT : DecidableLT τ
  decidableLE : DecidableLE τ
  decidableEq : DecidableEq τ

attribute [reducible, instance] Clock.decidableLT Clock.decidableLE Clock.decidableEq

instance : Clock ℤ where
  decidableLT := inferInstance
  decidableLE := inferInstance
  decidableEq := inferInstance

/-- The snapshot of a job. `null` is `none`, and the `null` value in `result`. -/
structure Job (ν τ : Type) where
  id : JsString
  queue : JsString
  name : JsString
  payload : Json ν
  status : JobStatus
  attempts : ℕ
  maxAttempts : ℕ
  runAt : τ
  createdAt : τ
  updatedAt : τ
  leaseUntil : Option τ
  lockedBy : Option JsString
  leaseMs : ℤ
  idempotencyKey : Option JsString
  priority : ℤ
  timeoutMs : ℤ
  lastError : Option JsString
  completedAt : Option τ
  result : Json ν
  tenant : Option JsString

structure EnqueueResult (ν τ : Type) where
  job : Job ν τ
  duplicate : Bool

/-! ## Errors -/

inductive JobConfigErrorCode
  | invalidName
  | invalidPayload
  | payloadTooLarge
  | invalidOption
  | unknownHandler
  | storeRequired
  | storeFull
  deriving DecidableEq

/-- `JobConfigError` and `JobIdempotencyConflictError`. -/
inductive JobError
  | config (code : JobConfigErrorCode) (message : JsString)
  | idempotencyConflict (key existingJobId : JsString)
  deriving DecidableEq

def JobError.message : JobError → JsString
  | .config _ message => message
  | .idempotencyConflict key existingJobId =>
    js "Job idempotency key \"" ++ key ++ js "\" was already used with a different payload " ++
      js "(existing job \"" ++ existingJobId ++ js "\")."

/-! ## Stored records -/

variable {ν τ : Type} [NumberText ν]

/-- The record of the memory store: payload and result stay serialized. -/
structure StoredJob (ν τ : Type) [NumberText ν] where
  id : JsString
  queue : JsString
  name : JsString
  payloadJson : JsonText ν
  status : JobStatus
  attempts : ℕ
  maxAttempts : ℕ
  runAt : τ
  createdAt : τ
  updatedAt : τ
  leaseUntil : Option τ
  lockedBy : Option JsString
  leaseMs : ℤ
  idempotencyKey : Option JsString
  priority : ℤ
  timeoutMs : ℤ
  lastError : Option JsString
  completedAt : Option τ
  resultJson : Option (JsonText ν)
  tenant : Option JsString

namespace StoredJob

def clone (job : StoredJob ν τ) : Job ν τ where
  id := job.id
  queue := job.queue
  name := job.name
  payload := job.payloadJson.read
  status := job.status
  attempts := job.attempts
  maxAttempts := job.maxAttempts
  runAt := job.runAt
  createdAt := job.createdAt
  updatedAt := job.updatedAt
  leaseUntil := job.leaseUntil
  lockedBy := job.lockedBy
  leaseMs := job.leaseMs
  idempotencyKey := job.idempotencyKey
  priority := job.priority
  timeoutMs := job.timeoutMs
  lastError := job.lastError
  completedAt := job.completedAt
  result := (job.resultJson.map JsonText.read).getD ⟨.null, trivial⟩
  tenant := job.tenant

variable [Clock τ]

/-- The record `#insert` makes of a job. -/
def inserted (job : Job ν τ) (payloadJson : JsonText ν) (now : τ) : StoredJob ν τ where
  id := job.id
  queue := job.queue
  name := job.name
  payloadJson := payloadJson
  -- the store decides from its own clock, whatever status the job came with
  status := if now < job.runAt then .delayed else .queued
  attempts := job.attempts
  maxAttempts := job.maxAttempts
  runAt := job.runAt
  createdAt := job.createdAt
  updatedAt := now
  leaseUntil := none
  lockedBy := none
  leaseMs := job.leaseMs
  idempotencyKey := job.idempotencyKey
  priority := job.priority
  timeoutMs := job.timeoutMs
  lastError := none
  completedAt := none
  resultJson := none
  tenant := job.tenant

/-- `compareRunnable(a, b) < 0`: higher priority first, then the earlier `runAt`, then the older,
then the smaller id. -/
def runsBefore (a b : StoredJob ν τ) : Bool :=
  if a.priority ≠ b.priority then b.priority < a.priority
  else if a.runAt ≠ b.runAt then a.runAt < b.runAt
  else if a.createdAt ≠ b.createdAt then a.createdAt < b.createdAt
  else a.id < b.id

end StoredJob

/-- A job with the payload `null`, two attempts and a lease of 30 ms, for runs on fixed inputs. -/
def sampleJob : Job ℕ ℤ where
  id := js "job-1"
  queue := js "default"
  name := js "mail"
  payload := ⟨.null, trivial⟩
  status := .queued
  attempts := 0
  maxAttempts := 2
  runAt := 0
  createdAt := 0
  updatedAt := 0
  leaseUntil := none
  lockedBy := none
  leaseMs := 30
  idempotencyKey := none
  priority := 0
  timeoutMs := 0
  lastError := none
  completedAt := none
  result := ⟨.null, trivial⟩
  tenant := none

end Daloy.Jobs
