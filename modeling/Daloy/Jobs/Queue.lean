import Daloy.Jobs.MemoryStore

/-! # `createJobQueue`: enqueueing a job

The options of a queue, the checks of `enqueue` and the job it builds from options that pass them.
The id and the clock readings are arguments. A payload is what `JSON.stringify` sees of it.
-/

namespace Daloy.Jobs
set_option autoImplicit false

open Daloy.Unicode Daloy.Json Daloy.Security

variable {ν τ : Type}

/-! ## Names -/

def isLower (u : UInt16) : Bool := 0x61 ≤ u.toNat && u.toNat ≤ 0x7a
def isUpper (u : UInt16) : Bool := 0x41 ≤ u.toNat && u.toNat ≤ 0x5a
def isAlphanumeric (u : UInt16) : Bool := isLower u || isUpper u || isDigit u

def isJobName : JsString → Bool
  | [] => false
  | u :: rest =>
    (isLower u || isUpper u) && rest.length ≤ 127 &&
      rest.all fun u => isAlphanumeric u || (js "._:-").contains u

def isQueueName (s : JsString) : Bool :=
  !s.isEmpty && s.length ≤ 64 && s.all fun u => isAlphanumeric u || (js "_:-").contains u

def isIdempotencyKey (s : JsString) : Bool :=
  !s.isEmpty && s.length ≤ 255 && s.all fun u => 0x21 ≤ u.toNat && u.toNat ≤ 0x7e

def isTenant (s : JsString) : Bool :=
  let ends (u : UInt16) : Bool := isLower u || isDigit u
  s.head?.any ends && s.getLast?.any ends && s.length ≤ 63 &&
    s.all fun u => ends u || (js "_-").contains u

/-! ## Options -/

/-- The options of a queue, with the defaults and the bounds of `createJobQueue`. -/
structure JobQueueOptions where
  payloadMaxBytes : ℕ := 65536
  defaultQueue : JsString := js "default"
  defaultMaxAttempts : ℤ := 5
  defaultTimeoutMs : ℤ := 30000
  defaultLeaseMs : ℤ := 30000
  payloadMaxBytes_pos : 1 ≤ payloadMaxBytes := by decide
  defaultQueue_named : isQueueName defaultQueue = true := by decide
  defaultMaxAttempts_pos : 1 ≤ defaultMaxAttempts := by decide
  defaultTimeoutMs_nonneg : 0 ≤ defaultTimeoutMs := by decide
  defaultLeaseMs_pos : 1 ≤ defaultLeaseMs := by decide

/-- A number passed as an option: an integer, or something `Number.isInteger` refuses. -/
inductive NumberArg
  | integer (n : ℤ)
  | nonInteger

/-- `runAt`: a finite time, or something `Number.isFinite` refuses. -/
inductive TimeArg (τ : Type)
  | finite (t : τ)
  | nonFinite

/-- The payload passed to `enqueue`: a value without a text, an instance of a class, something on
which `JSON.stringify` throws, or the JSON value it writes. -/
inductive Payload (ν : Type)
  | untextual (typeName : JsString)
  | nonPlain
  | unserializable (reason : JsString)
  | json (v : Json ν)

structure EnqueueOptions (ν τ : Type) where
  name : JsString
  payload : Payload ν
  queue : Option JsString := none
  idempotencyKey : Option JsString := none
  runAt : Option (TimeArg τ) := none
  delayMs : Option NumberArg := none
  priority : Option NumberArg := none
  maxAttempts : Option NumberArg := none
  timeoutMs : Option NumberArg := none
  leaseMs : Option NumberArg := none
  tenant : Option JsString := none

/-! ## The checks -/

def assertJobName (name : JsString) : Except JobError JsString :=
  if isJobName name then .ok name
  else
    .error (.config .invalidName (js "Invalid job name " ++ quote name ++
      js ": must match ^[a-zA-Z][a-zA-Z0-9._:-]\x7b0,127\x7d$."))

def assertQueueName (queue : JsString) : Except JobError JsString :=
  if isQueueName queue then .ok queue
  else
    .error (.config .invalidName (js "Invalid queue name " ++ quote queue ++
      js ": must match ^[a-zA-Z0-9_:-]\x7b1,64\x7d$."))

def assertIdempotencyKey (key : JsString) : Except JobError JsString :=
  if isIdempotencyKey key then .ok key
  else
    .error (.config .invalidOption (js ("Job idempotencyKey must be 1-255 printable ASCII " ++
      "characters (no whitespace or control characters).")))

def assertTenant (tenant : JsString) : Except JobError JsString :=
  if isTenant tenant then .ok tenant
  else
    .error (.config .invalidOption (js "Invalid tenant " ++ quote tenant ++
      js (": must match the tenancy() id grammar " ++
        "^[a-z0-9](?:[a-z0-9_-]\x7b0,61\x7d[a-z0-9])?$.")))

/-- `given === undefined ? fallback : check(given)`. -/
def optional {α β : Type} (given : Option α) (fallback : β) (check : α → Except JobError β) :
    Except JobError β :=
  match given with
  | none => .ok fallback
  | some a => check a

/-- `x ?? fallback`, an integer that is at least `bound`, or the error with the message. -/
def integerOption (given : Option NumberArg) (fallback bound : ℤ) (message : String) :
    Except JobError ℤ :=
  match given with
  | none => .ok fallback
  | some .nonInteger => .error (.config .invalidOption (js message))
  | some (.integer n) => if n < bound then .error (.config .invalidOption (js message)) else .ok n

/-- `enqueueOpts.priority ?? 0`, any integer. -/
def priorityOption (given : Option NumberArg) : Except JobError ℤ :=
  match given with
  | none => .ok 0
  | some .nonInteger =>
    .error (.config .invalidOption (js "enqueue(): priority must be an integer."))
  | some (.integer n) => .ok n

def runAtOption [Add τ] [IntCast τ] (opts : EnqueueOptions ν τ) (enqueueNow : τ) :
    Except JobError τ :=
  match opts.runAt with
  | some (.finite t) => .ok t
  | some .nonFinite =>
    .error (.config .invalidOption (js "enqueue(): runAt must be a finite epoch ms or a Date."))
  | none =>
    (integerOption opts.delayMs 0 0 "enqueue(): delayMs must be a non-negative integer.").map
      fun delayMs => enqueueNow + (delayMs : τ)

variable [NumberText ν]

/-- `serializePayload(payload, maxBytes, what)`: the text, of at most `maxBytes` bytes. -/
def serializePayload (payload : Payload ν) (maxBytes : ℕ) (what : String) :
    Except JobError (JsonText ν) :=
  match payload with
  | .untextual typeName =>
    .error (.config .invalidPayload
      (js ("Job " ++ what ++ " must be a JSON-serializable value; got ") ++ typeName ++ js "."))
  | .nonPlain =>
    .error (.config .invalidPayload
      (js ("Job " ++ what ++
        " must be a plain JSON object, array, or primitive; got a non-plain object.")))
  | .unserializable reason =>
    .error (.config .invalidPayload
      (js ("Job " ++ what ++ " is not JSON-serializable: ") ++ reason))
  | .json v =>
    match firstForbidden v.1 with
    | some key =>
      .error (.config .invalidPayload
        (js ("Job " ++ what ++ " contains forbidden key \"") ++ key ++
          js "\" (prototype pollution)."))
    | none =>
      let bytes := encodeText v.text.1
      if bytes.length > maxBytes then
        .error (.config .payloadTooLarge
          (js ("Job " ++ what ++ " is " ++ toString bytes.length ++
            " bytes serialized; the limit is " ++ toString maxBytes ++ " bytes. " ++
            "Jobs are not a blob store — put large payloads in object storage and enqueue the URL.")))
      else .ok v.text

/-! ## `enqueue` -/

/-- `createJobQueue(queueOpts).enqueue(opts)` up to the call of the store. -/
def buildJob [Clock τ] (queueOpts : JobQueueOptions) (id : JsString) (enqueueNow : τ)
    (opts : EnqueueOptions ν τ) : Except JobError (Job ν τ) := do
  let name ← assertJobName opts.name
  let queueName ← optional opts.queue queueOpts.defaultQueue assertQueueName
  let idempotencyKey ← optional opts.idempotencyKey none fun key =>
    (assertIdempotencyKey key).map some
  let tenant ← optional opts.tenant none fun tenant => (assertTenant tenant).map some
  let runAt ← runAtOption opts enqueueNow
  let priority ← priorityOption opts.priority
  let maxAttempts ← integerOption opts.maxAttempts queueOpts.defaultMaxAttempts 1
    "enqueue(): maxAttempts must be a positive integer."
  let timeoutMs ← integerOption opts.timeoutMs queueOpts.defaultTimeoutMs 0
    ("enqueue(): timeoutMs must be a non-negative integer " ++
      "(0 disables the per-attempt timeout).")
  let leaseMs ← integerOption opts.leaseMs queueOpts.defaultLeaseMs 1
    "enqueue(): leaseMs must be a positive integer."
  let json ← serializePayload opts.payload queueOpts.payloadMaxBytes "payload"
  return {
    id, queue := queueName, name
    payload := json.read
    status := if enqueueNow < runAt then .delayed else .queued
    attempts := 0
    maxAttempts := maxAttempts.toNat
    runAt
    createdAt := enqueueNow
    updatedAt := enqueueNow
    leaseUntil := none
    lockedBy := none
    leaseMs, idempotencyKey, priority, timeoutMs
    lastError := none
    completedAt := none
    result := ⟨.null, trivial⟩
    tenant }

/-- `enqueue(opts)` on a queue over a memory store whose clock reads `storeNow`. -/
def enqueue [Clock τ] (storeOpts : MemoryJobStoreOptions) (queueOpts : JobQueueOptions)
    (s : MemoryJobStore ν τ) (id : JsString) (enqueueNow storeNow : τ)
    (opts : EnqueueOptions ν τ) : MemoryJobStore ν τ × Except JobError (EnqueueResult ν τ) :=
  match buildJob queueOpts id enqueueNow opts with
  | .error e => (s, .error e)
  | .ok job => s.put storeOpts job storeNow

end Daloy.Jobs
