import Daloy.Foundations.JsMap
import Daloy.Foundations.Runs
import Daloy.Foundations.Unicode
import Mathlib.Algebra.Ring.Int.Defs
import Mathlib.Logic.Function.Basic

/-! # The concurrency limiter

`concurrencyLimit` of `src/concurrency-limit.ts` with the request finalizers of
`src/request-finalizers.ts`.

Requests and bucket objects are numbered. A waiter is its request's: its promise is pending while
the request is `waiting`, and then its timer runs and its abort listener is registered; settling it
removes both. The continuation of the promise runs in a step of its own, `resume`.

The fields `enqueued`, `admitted`, `taken`, `released`, `finalized` and `finished` record what
happened; no function of the limiter reads them.
-/

namespace Daloy.Resilience
set_option autoImplicit false

open Daloy.Unicode

/-- `ConcurrencyLimitOptions`, as the factory checks them. -/
structure ConcurrencyLimitOptions where
  maxConcurrent : ℕ
  maxQueue : ℕ := 0
  queueTimeoutMs : ℕ := 0
  maxConcurrent_pos : 0 < maxConcurrent

inductive RejectionReason
  | queueFull
  | queueTimeout
  deriving DecidableEq

structure ConcurrencyRejection where
  key : JsString
  reason : RejectionReason
  active : ℤ
  queued : ℕ
  deriving DecidableEq

/-- What `beforeHandle` throws: the reason of the signal, an `AbortError`, or a 503. -/
inductive WaitError
  | aborted
  | abandoned
  | overloaded (rejection : ConcurrencyRejection)
  deriving DecidableEq

/-- Where a request's `beforeHandle` stands. -/
inductive Phase
  | idle
  | waiting (key : JsString) (bucket : ℕ)
  | handed (key : JsString)
  | refused (err : WaitError)
  | passed
  | threw (err : WaitError)
  deriving DecidableEq

/-- `beforeHandle` has returned or thrown. -/
def Phase.isSettled : Phase → Bool
  | .passed | .threw _ => true
  | _ => false

/-- What is registered: the waiter's rejection, or `releaseFor`. -/
inductive RequestFinalizer
  | rejectWaiter
  | releaseFor
  deriving DecidableEq

/-- A request, with its slots on `ctx.state`. -/
structure Request where
  aborted : Bool := false
  abandoned : Bool := false
  phase : Phase := .idle
  acquired : Bool := false
  bucketKey : Option JsString := none
  finalizers : List RequestFinalizer := []
  taken : ℕ := 0
  released : ℕ := 0
  finalized : Bool := false
  finished : Bool := false
  deriving DecidableEq

structure Bucket where
  active : ℤ := 0
  queue : List ℕ := []
  deriving DecidableEq

/-- The map of the buckets, the bucket objects made so far, and the requests. -/
structure Limiter where
  buckets : JsMap JsString ℕ := ∅
  bucket : ℕ → Bucket := fun _ => {}
  created : ℕ := 0
  request : ℕ → Request := fun _ => {}
  enqueued : JsString → List ℕ := fun _ => []
  admitted : JsString → List ℕ := fun _ => []

namespace Request

def isAbandoned (q : Request) : Bool := q.aborted || q.abandoned

def abortReason (q : Request) : WaitError := if q.aborted then .aborted else .abandoned

/-- The end of `beforeHandle` for a request that has a slot. -/
def acquire (q : Request) (key : JsString) : Request :=
  { q with
    phase := .passed
    acquired := true
    bucketKey := some key
    finalizers := q.finalizers ++ [.releaseFor] }

end Request

namespace Limiter

def setRequest (s : Limiter) (r : ℕ) (q : Request) : Limiter :=
  { s with request := Function.update s.request r q }

def setBucket (s : Limiter) (b : ℕ) (bucket : Bucket) : Limiter :=
  { s with bucket := Function.update s.bucket b bucket }

def getBucket (s : Limiter) (key : JsString) : ℕ × Limiter :=
  match s.buckets.get? key with
  | some b => (b, s)
  | none =>
    (s.created, { s.setBucket s.created {} with
      buckets := s.buckets.set key s.created
      created := s.created + 1 })

/-! ## Waiters -/

/-- `waiter.reject(err)`: nothing, once the waiter is settled. -/
def rejectWaiter (s : Limiter) (r : ℕ) (err : WaitError) : Limiter :=
  match (s.request r).phase with
  | .waiting _ b =>
    let s := s.setBucket b { s.bucket b with queue := (s.bucket b).queue.erase r }
    s.setRequest r { s.request r with phase := .refused err }
  | _ => s

/-- `waiter.resolve()`: the slot is handed over. -/
def resolveWaiter (s : Limiter) (r : ℕ) : Limiter :=
  match (s.request r).phase with
  | .waiting key _ =>
    { s.setRequest r { s.request r with
        phase := .handed key
        taken := (s.request r).taken + 1 } with
      admitted := Function.update s.admitted key (s.admitted key ++ [r]) }
  | _ => s

/-! ## Releasing -/

/-- The end of `release`, where nobody takes the slot over. -/
def freeSlot (s : Limiter) (key : JsString) (b : ℕ) : Limiter :=
  let bucket : Bucket := { s.bucket b with active := (s.bucket b).active - 1 }
  if bucket.active ≤ 0 ∧ bucket.queue = [] then
    { s.setBucket b { bucket with active := 0 } with buckets := s.buckets.delete key }
  else s.setBucket b bucket

/-- The loop of `release`, with the length of the queue as its bound. -/
def handOver (key : JsString) (b : ℕ) : ℕ → Limiter → Limiter
  | 0, s => s.freeSlot key b
  | fuel + 1, s =>
    match (s.bucket b).queue with
    | [] => s.freeSlot key b
    | next :: queue =>
      let s := s.setBucket b { s.bucket b with queue }
      if (s.request next).isAbandoned then
        handOver key b fuel (s.rejectWaiter next (s.request next).abortReason)
      else s.resolveWaiter next

def release (s : Limiter) (key : JsString) : Limiter :=
  match s.buckets.get? key with
  | none => s
  | some b => handOver key b (s.bucket b).queue.length s

def releaseFor (s : Limiter) (r : ℕ) : Limiter :=
  if (s.request r).acquired then
    let s := s.setRequest r { s.request r with
      acquired := false
      released := (s.request r).released + 1 }
    match (s.request r).bucketKey with
    | some key => s.release key
    | none => s
  else s

/-! ## The hooks -/

def enqueue (s : Limiter) (r : ℕ) (key : JsString) (b : ℕ) : Limiter :=
  let q : Request := { s.request r with finalizers := (s.request r).finalizers ++ [.rejectWaiter] }
  if q.isAbandoned then s.setRequest r { q with phase := .refused q.abortReason }
  else
    { (s.setRequest r { q with phase := .waiting key b }).setBucket b
        { s.bucket b with queue := (s.bucket b).queue ++ [r] } with
      enqueued := Function.update s.enqueued key (s.enqueued key ++ [r]) }

/-- `beforeHandle(ctx)` up to its `await`, where `resolveKey(ctx)` is `key`. -/
def beforeHandle (s : Limiter) (c : ConcurrencyLimitOptions) (r : ℕ) (key : Option JsString) :
    Limiter :=
  match key with
  | none => s.setRequest r { s.request r with phase := .passed }
  | some key =>
    let (b, s) := s.getBucket key
    if (s.bucket b).active < c.maxConcurrent then
      let s := s.setBucket b { s.bucket b with active := (s.bucket b).active + 1 }
      s.setRequest r { (s.request r).acquire key with taken := (s.request r).taken + 1 }
    else if 0 < c.maxQueue ∧ (s.bucket b).queue.length < c.maxQueue then s.enqueue r key b
    else
      let rejection : ConcurrencyRejection :=
        ⟨key, .queueFull, (s.bucket b).active, (s.bucket b).queue.length⟩
      s.setRequest r { s.request r with phase := .threw (.overloaded rejection) }

def onTimeout (s : Limiter) (r : ℕ) (key : JsString) (b : ℕ) : Limiter :=
  let s := s.setBucket b { s.bucket b with queue := (s.bucket b).queue.erase r }
  s.rejectWaiter r (.overloaded
    ⟨key, .queueTimeout, (s.bucket b).active, (s.bucket b).queue.length⟩)

def onSend (s : Limiter) (r : ℕ) : Limiter :=
  if (s.request r).abandoned then s else s.releaseFor r

def runFinalizer (s : Limiter) (r : ℕ) : RequestFinalizer → Limiter
  | .rejectWaiter => s.rejectWaiter r (s.request r).abortReason
  | .releaseFor => s.releaseFor r

def runRequestFinalizers (s : Limiter) (r : ℕ) : Limiter :=
  let q := s.request r
  let s := s.setRequest r { q with finalizers := [], finalized := true }
  let s := q.finalizers.foldl (fun s fn => s.runFinalizer r fn) s
  s.setRequest r { s.request r with
    finished := (s.request r).finished || (s.request r).phase.isSettled }

end Limiter

/-! ## Steps -/

/-- What happens around the limiter: a request's hooks are called, the continuation of its promise
runs, its signal aborts, its deadline answers, the timer of its waiter fires, its finalizers run. -/
inductive LimiterEvent
  | beforeHandle (r : ℕ) (key : Option JsString)
  | resume (r : ℕ)
  | abort (r : ℕ)
  | markAbandoned (r : ℕ)
  | timeout (r : ℕ)
  | onSend (r : ℕ)
  | runFinalizers (r : ℕ)

namespace Limiter

/-- The continuation of `beforeHandle`, once the promise is settled. -/
def resume (s : Limiter) (r : ℕ) : Option Limiter :=
  match (s.request r).phase with
  | .handed key => some (s.setRequest r ((s.request r).acquire key))
  | .refused err => some (s.setRequest r { s.request r with phase := .threw err })
  | _ => none

/-- One step. `beforeHandle` is called once for a request. -/
def step (c : ConcurrencyLimitOptions) (s : Limiter) : LimiterEvent → Option Limiter
  | .beforeHandle r key =>
    if (s.request r).phase = .idle then some (s.beforeHandle c r key) else none
  | .resume r => s.resume r
  | .abort r => some ((s.setRequest r { s.request r with aborted := true }).rejectWaiter r .aborted)
  | .markAbandoned r => some (s.setRequest r { s.request r with abandoned := true })
  | .timeout r =>
    match (s.request r).phase with
    | .waiting key b => if 0 < c.queueTimeoutMs then some (s.onTimeout r key b) else none
    | _ => none
  | .onSend r => some (s.onSend r)
  | .runFinalizers r => some (s.runRequestFinalizers r)

end Limiter

end Daloy.Resilience
