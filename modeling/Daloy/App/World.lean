import Daloy.Foundations.Tasks
import Daloy.Routing.Router

/-! # What a dispatch works on

Responses, contexts and the state of one dispatch of `src/app.ts`, and the calls it makes of hooks.

* `Env`: what hooks and handlers read and write. `World` adds what the dispatch keeps for itself.
* `call`: a step that is awaited, under the request's deadline or not. A step that outlives the
  deadline is left with the rest of its work.

Time passes where a promise is awaited: the deadline is the number of pieces of work it allows. The
trace has an entry for each step that is started and for each that has settled.
-/

namespace Daloy.Dispatch
set_option autoImplicit false

open Daloy.Effects Daloy.Unicode

/-- What hooks and handlers bring with them. -/
structure Kinds where
  /-- What they share outside the contexts. -/
  User : Type
  /-- Values in `ctx.state` that are no booleans, strings or lists of strings. -/
  Field : Type
  Body : Type
  /-- `null` as a body. -/
  noBody : Body
  Value : Type
  Thrown : Type
  /-- What a request has besides its method and path. -/
  Rest : Type

/-- A key of `ctx.state`. -/
inductive Key
  | authRan
  | authOptionalPass
  | requireScopes
  | name (text : JsString)
  deriving DecidableEq

inductive StateValue (V : Type)
  | bool (b : Bool)
  | text (s : JsString)
  | texts (ss : List JsString)
  | other (v : V)

/-- The slots of hooks, and the other steps of a dispatch that may be asynchronous. -/
inductive Slot
  | onRequest | routeOnRequest | preBody | validation | beforeHandle | handler | afterHandle
  | serialization | onError | onSend | onResponse
  deriving DecidableEq, Repr

/-- The context that the steps of a matched or unmatched request share, the one of a synthesized
preflight, and the one that error hooks get where there is no other. -/
inductive Which
  | main | preflight | bootstrap
  deriving DecidableEq, Repr

variable (K : Kinds)

/-- The names of header fields are in lower case. -/
structure Response where
  status : ℕ
  headers : JsMap JsString JsString := ∅
  /-- Its headers throw when they are written. -/
  immutable : Bool := false
  schemaValidated : Bool := false
  disconnect : Bool := false
  body : K.Body

structure Request where
  method : JsString
  pathname : JsString
  rest : K.Rest

/-- What is thrown: by the dispatch itself, or by the code it calls. -/
inductive Thrown
  | notFound (detail : JsString)
  | methodNotAllowed (allow : List JsString)
  | unauthorized (detail : JsString)
  | internal (detail : JsString)
  | requestTimeout (status : ℕ)
  | immutableHeaders
  | other (err : K.Thrown)

structure Context where
  state : JsMap Key (StateValue K.Field) := ∅
  /-- `ctx.set.headers`, once it was touched. -/
  headers : Option (JsMap JsString JsString) := none
  /-- What `registerRequestFinalizer` has put there, by number. -/
  finalizers : List ℕ := []
  routePath : Option JsString := none

structure Env where
  user : K.User
  main : Context K := {}
  preflight : Context K := {}
  bootstrap : Context K := {}
  /-- The context that is passed to the hook. -/
  given : Option Which := none
  /-- `request.signal.aborted`. -/
  aborted : Bool := false
  /-- `isRequestAbandoned`. -/
  abandoned : Bool := false

/-- `served` tells from where a protected route may be answered: its handler is called, or the
response of a hook is accepted. -/
inductive Entry
  | entered
  | started (slot : Slot)
  | settled (slot : Slot)
  | served (slot : Slot) (env : Env K)
  | left
  | finalized (ids : List ℕ)
  | graceElapsed

abbrev Hook (α : Type) := Fn (Env K) (Thrown K) α

abbrev Rest := Task (Env K) (Thrown K) Unit

inductive Failure
  | thrown (err : Thrown K)
  | abandoned (slot : Slot) (rest : Rest K)

/-- `Hooks`, as `mergeHooks` leaves them. -/
structure MergedHooks where
  onRequest : Option (Request K → Hook K Unit) := none
  preBody : Option (Hook K (Option (Response K))) := none
  beforeHandle : Option (Hook K (Option (Response K))) := none
  afterHandle : Option (K.Value ⊕ Response K → Hook K (Option (K.Value ⊕ Response K))) := none
  onError : Option (Thrown K → Hook K (Option (Response K))) := none
  onSend : Option (Response K → Hook K (Option (Response K))) := none
  onResponse : Option (Response K → Hook K Unit) := none

abbrev CorsDecorator := Request K → Except (Thrown K) (JsMap JsString JsString)

structure CompiledRoute where
  internal : Bool := false
  allowEncodedSlash : Bool := false
  acknowledgeNoResponseBodySchema : Bool := false
  path : JsString := []
  /-- `hooks.onRequest`, of the groups and of the route. -/
  onRequest : Option (Request K → Hook K Unit) := none
  mergedHooks : MergedHooks K := {}
  corsDecorate : Option (CorsDecorator K) := none
  crossOrigin : Request K → Except (Thrown K) Unit := fun _ => .ok ()
  requiresAuthRun : Bool := false
  decorations : List (JsString × StateValue K.Field) := []
  requestTimeoutMs : ℕ := 0
  validate : Hook K Unit := fun env => .ok (.value ()) env
  handler : Hook K (K.Value ⊕ Response K)
  serialize : K.Value → Hook K (Response K)

/-- What a dispatch keeps for itself: counters of the App, its own variables and the trace. -/
structure World where
  env : Env K
  draining : Bool := false
  inflight : ℤ := 0
  requestId : JsString := []
  /-- `ctx !== undefined`. -/
  ctx : Bool := false
  preflightCtx : Bool := false
  onRequestRan : Bool := false
  hookCtx : Option Which := none
  /-- The route whose hooks are the active ones. -/
  route : Option (CompiledRoute K) := none
  /-- What a deadline allows when it is set. -/
  allowance : ℕ := 0
  /-- What the deadline still allows. -/
  deadline : Option ℕ := none
  log : List (Entry K) := []

variable {K}

/-! ## Contexts and responses -/

def Env.context (env : Env K) : Which → Context K
  | .main => env.main
  | .preflight => env.preflight
  | .bootstrap => env.bootstrap

def Env.setContext (env : Env K) (which : Which) (context : Context K) : Env K :=
  match which with
  | .main => { env with main := context }
  | .preflight => { env with preflight := context }
  | .bootstrap => { env with bootstrap := context }

def Context.isTrue (context : Context K) (key : Key) : Bool :=
  match context.state.get? key with
  | some (.bool b) => b
  | _ => false

namespace Response

def setHeader (res : Response K) (name value : JsString) : Except (Thrown K) (Response K) :=
  if res.immutable then .error .immutableHeaders
  else .ok { res with headers := res.headers.set name value }

def addHeader (res : Response K) (name value : JsString) : Except (Thrown K) (Response K) :=
  if (res.headers.get? name).isSome then .ok res else res.setHeader name value

def addHeaders : List (JsString × JsString) → Response K → Except (Thrown K) (Response K)
  | [], res => .ok res
  | (name, value) :: headers, res => do addHeaders headers (← res.addHeader name value)

end Response

def copyContextHeaders (context : Context K) (res : Response K) :
    Except (Thrown K) (Response K) :=
  match context.headers with
  | none => .ok res
  | some headers => res.addHeaders headers.entries

/-! ## Steps -/

abbrev Step (K : Kinds) (α : Type) := Call (World K) (Failure K) α

namespace World

def note (w : World K) (entries : List (Entry K)) : World K := { w with log := w.log ++ entries }

/-- The deadline allows `n` more pieces of work. One that has passed aborts the request. -/
def allow (w : World K) (n : ℕ) : World K :=
  { w with deadline := some n, env := { w.env with aborted := w.env.aborted || n == 0 } }

def tick (w : World K) : World K :=
  match w.deadline with
  | some (n + 1) => w.allow n
  | _ => w

def expired (w : World K) : Bool := w.deadline == some 0

/-- `deadline ??= new RequestDeadline(...)`. -/
def arm (w : World K) : World K :=
  match w.deadline with
  | none => w.allow w.allowance
  | some _ => w

end World

def fail {α : Type} (err : Thrown K) : Step K α := throw (.thrown err)

def orFail {α : Type} : Except (Thrown K) α → Step K α
  | .ok a => pure a
  | .error err => fail err

def start {α : Type} (slot : Slot) (given : Option Which) (fn : Hook K α) :
    Call (World K) (Thrown K) (Settling (Env K) (Thrown K) α) := fun w =>
  match fn { w.env with given } with
  | .ok (.value a) env => .ok (.value a) ({ w with env }.note [.started slot, .settled slot])
  | .ok (.promise task) env => .ok (.promise task) ({ w with env }.note [.started slot])
  | .error err env => .error err ({ w with env }.note [.started slot, .settled slot])

/-- The rest of a step is awaited. Under a deadline it is abandoned when that has passed. -/
def finish {α : Type} (slot : Slot) (raced : Bool) : Task (Env K) (Thrown K) α → Step K α
  | .done result => do
    modify fun w => w.note [.settled slot]
    orFail result
  | .run step next => fun w =>
    if raced && w.expired then
      .error (.abandoned slot (.run step fun env => (next env).discard))
        { w with env := { w.env with abandoned := true } }
    else finish slot raced (next w.env) ({ w with env := step w.env }.tick)

def race {α : Type} (slot : Slot) (task : Task (Env K) (Thrown K) α) : Step K α := fun w =>
  let w := w.arm
  if w.expired then
    .error (.abandoned slot task.discard) { w with env := { w.env with abandoned := true } }
  else finish slot true task w

/-- A step: `const r = fn(...)`, and `await` where `r` is a promise. -/
def call {α : Type} (slot : Slot) (given : Option Which) (raced : Bool) (fn : Hook K α) :
    Step K α := fun w =>
  match start slot given fn w with
  | .ok (.value a) w => .ok a w
  | .ok (.promise task) w => if raced then race slot task w else finish slot false task w
  | .error err w => .error (.thrown err) w

end Daloy.Dispatch
