import Daloy.App.World

/-! # `App.dispatch`

`App.dispatch` of `src/app.ts` with what it calls: the cold path of requests that no route answers,
the route path, the error path, the pipeline that finalizes responses, and the release of the
request's leases.

* `Finalizing`: a response on its way through `onSend` and `onResponse`.
* `answer`: the `try` and the `catch` block, up to the `return`.
* `dispatch`: the `finally` block, and what still runs after it.

The `catch` block returns what `finalizeResponse` gives, a promise too, and does not await it.
-/

namespace Daloy.Dispatch
set_option autoImplicit false

open Daloy.Effects Daloy.Routing Daloy.Unicode

variable {K : Kinds}

inductive Fingerprint
  | keep
  | strip
  | poweredBy (text : JsString)

/-- An App when its routes and hooks have been registered. -/
structure App (K : Kinds) where
  /-- `globalHooks`: those of the options, and the response hooks of `secureHeaders()`. -/
  globalHooks : MergedHooks K := {}
  /-- `coldPathHooks`: those of the options and of `app.use()`. -/
  coldPathHooks : MergedHooks K := {}
  router : Router (CompiledRoute K) := Router.new
  /-- The guards in front of all hooks: headers, `Host`, proxies and the boot guards. -/
  inboundGuards : Request K → Except (Thrown K) Unit := fun _ => .ok ()
  /-- `assertCrossOriginAllowed` under the policies of the App. -/
  crossOrigin : Request K → Except (Thrown K) Unit := fun _ => .ok ()
  corsDecorate : Option (CorsDecorator K) := none
  decorations : List (JsString × StateValue K.Field) := []
  production : Bool := true
  secureDefaults : Bool := true
  mock : Option (CompiledRoute K → Except (Thrown K) (K.Value ⊕ Response K)) := none
  fingerprint : Fingerprint := .strip
  requestTimeoutStatus : ℕ := 408
  disconnectStatusCode : ℕ := 499
  /-- `HttpError`s of the code that is called: their status and header fields. -/
  httpError : K.Thrown → Option (ℕ × List (JsString × JsString)) := fun _ => none
  /-- The problem details as JSON, where they can be written. -/
  problem : Thrown K → JsString → Except K.Thrown K.Body
  shuttingDown : K.Body

def HttpMethod.ofText? (text : JsString) : Option HttpMethod :=
  [.get, .post, .put, .patch, .delete, .head, .options].find? fun m => m.text = text

def stateOf (decorations : List (JsString × StateValue K.Field)) :
    JsMap Key (StateValue K.Field) → JsMap Key (StateValue K.Field) :=
  decorations.foldl (fun state d => state.set (.name d.1) d.2)

/-- `coldPathContext`. The logger is left out. -/
def coldPathContext (app : App K) (requestId : JsString) (stampRequestId : Bool) : Context K where
  state := (stateOf app.decorations ∅).set (.name (js "requestId")) (.text requestId)
  headers := if stampRequestId then some (JsMap.set ∅ (js "x-request-id") requestId) else none

/-! ## Responses on their way -/

def applyFingerprint (mode : Fingerprint) (res : Response K) : Except (Thrown K) (Response K) :=
  match mode with
  | .keep => .ok res
  | .strip =>
    if res.immutable then .error .immutableHeaders
    else .ok { res with headers := (res.headers.delete (js "server")).delete (js "x-powered-by") }
  | .poweredBy text =>
    if res.immutable then .error .immutableHeaders
    else .ok { res with headers := (res.headers.delete (js "server")).set (js "x-powered-by") text }

/-- What `finalizeResponse` gives: it has returned or thrown, or the response waits for a hook. -/
inductive Finalizing (K : Kinds)
  | finished (result : Except (Thrown K) (Response K))
  | sending (res : Response K) (task : Task (Env K) (Thrown K) (Option (Response K)))
  | responding (res : Response K) (task : Task (Env K) (Thrown K) Unit)

def finishFinalize (app : App K) (hooks : MergedHooks K) (ctx : Option Which) (res : Response K)
    (w : World K) : Finalizing K × World K :=
  match applyFingerprint app.fingerprint res with
  | .error err => (.finished (.error err), w)
  | .ok res =>
    match hooks.onResponse with
    | none => (.finished (.ok res), w)
    | some onResponse =>
      match start .onResponse ctx (onResponse res) w with
      | .ok (.value ()) w => (.finished (.ok res), w)
      | .ok (.promise task) w => (.responding res task, w)
      | .error err w => (.finished (.error err), w)

def finalizeResponse (app : App K) (hooks : MergedHooks K) (ctx : Option Which) (res : Response K)
    (w : World K) : Finalizing K × World K :=
  match hooks.onSend with
  | none => finishFinalize app hooks ctx res w
  | some onSend =>
    match start .onSend ctx (onSend res) w with
    | .ok (.value sent) w => finishFinalize app hooks ctx (sent.getD res) w
    | .ok (.promise task) w => (.sending res task, w)
    | .error err w => (.finished (.error err), w)

def Finalizing.step (app : App K) (hooks : MergedHooks K) (ctx : Option Which) (w : World K) :
    Finalizing K → Finalizing K × World K
  | .finished result => (.finished result, w)
  | .sending res (.done (.ok sent)) =>
    finishFinalize app hooks ctx (sent.getD res) (w.note [.settled .onSend])
  | .sending _ (.done (.error err)) => (.finished (.error err), w.note [.settled .onSend])
  | .sending res (.run step next) =>
    (.sending res (next w.env), World.tick { w with env := step w.env })
  | .responding res (.done (.ok ())) => (.finished (.ok res), w.note [.settled .onResponse])
  | .responding _ (.done (.error err)) => (.finished (.error err), w.note [.settled .onResponse])
  | .responding res (.run step next) =>
    (.responding res (next w.env), World.tick { w with env := step w.env })

def Finalizing.isFinished : Finalizing K → Bool
  | .finished _ => true
  | _ => false

/-- The rest of a response's way, from `onResponse` on. -/
def settleResponding (res : Response K) :
    Task (Env K) (Thrown K) Unit → World K → Except (Thrown K) (Response K) × World K
  | .done (.ok ()), w => (.ok res, w.note [.settled .onResponse])
  | .done (.error err), w => (.error err, w.note [.settled .onResponse])
  | .run step next, w => settleResponding res (next w.env) (World.tick { w with env := step w.env })

/-- The rest of a response's way, from `onSend` on. -/
def settleSending (app : App K) (hooks : MergedHooks K) (ctx : Option Which) (res : Response K) :
    Task (Env K) (Thrown K) (Option (Response K)) → World K →
      Except (Thrown K) (Response K) × World K
  | .done (.ok sent), w =>
    match finishFinalize app hooks ctx (sent.getD res) (w.note [.settled .onSend]) with
    | (.finished result, w) => (result, w)
    | (.responding res task, w) => settleResponding res task w
    | (.sending .., w) => (.ok res, w)
  | .done (.error err), w => (.error err, w.note [.settled .onSend])
  | .run step next, w =>
    settleSending app hooks ctx res (next w.env) (World.tick { w with env := step w.env })

def Finalizing.settle (app : App K) (hooks : MergedHooks K) (ctx : Option Which)
    (fin : Finalizing K) (w : World K) : Except (Thrown K) (Response K) × World K :=
  match fin with
  | .finished result => (result, w)
  | .sending res task => settleSending app hooks ctx res task w
  | .responding res task => settleResponding res task w

/-- `await finalizeResponse(...)`. -/
def finalize (app : App K) (hooks : MergedHooks K) (ctx : Option Which) (res : Response K) :
    Step K (Response K) := fun w =>
  let (fin, w) := finalizeResponse app hooks ctx res w
  match fin.settle app hooks ctx w with
  | (.ok res, w) => .ok res w
  | (.error err, w) => .error (.thrown err) w

/-- The headers of the context and the request id are set, and the response goes on its way. -/
def send (app : App K) (hooks : MergedHooks K) (which : Which) (res : Response K) :
    Step K (Response K) := do
  let w ← get
  let res ← orFail (copyContextHeaders (w.env.context which) res)
  let res ← orFail (res.addHeader (js "x-request-id") w.requestId)
  finalize app hooks (some which) res

/-! ## No route -/

def coldGuard (app : App K) (slot : Slot) (guard : Option (Hook K (Option (Response K))))
    (rest : Step K (Response K)) : Step K (Response K) :=
  match guard with
  | none => rest
  | some guard => do
    match ← call slot (some .main) false guard with
    | some guarded => send app app.coldPathHooks .main guarded
    | none => rest

/-- An `OPTIONS` request to a path that has other methods. -/
def preflight (app : App K) (allowed : List HttpMethod) : Step K (Response K) := do
  modify fun w => { w with
    preflightCtx := true
    env := { w.env with preflight := coldPathContext app w.requestId false } }
  let rest : Step K (Response K) := do
    let allow := (js ", ").intercalate (allowed.map HttpMethod.text)
    send app app.coldPathHooks .preflight
      { status := 204, headers := JsMap.set ∅ (js "allow") allow, body := K.noBody }
  match app.coldPathHooks.beforeHandle with
  | none => rest
  | some beforeHandle => do
    match ← call .beforeHandle (some .preflight) false beforeHandle with
    | some intercepted => send app app.coldPathHooks .preflight intercepted
    | none => rest

def noRoute (request : Request K) : Thrown K :=
  .notFound (js "No route for " ++ request.method ++ js " " ++ request.pathname)

/-- `{ ...decorations, requestId, log }` in a context of its own, when something may read it. -/
def coldContext (app : App K) (needed : Bool) : Step K Unit :=
  modify fun w => if needed then { w with
    ctx := true
    env := { w.env with main := coldPathContext app w.requestId true } } else w

def coldPath (app : App K) (request : Request K) (allowed : List HttpMethod) :
    Step K (Response K) :=
  if request.method = js "OPTIONS" then
    if allowed.isEmpty then do
      coldContext app app.globalHooks.onError.isSome
      fail (noRoute request)
    else preflight app allowed
  else do
    coldContext app (app.globalHooks.onError.isSome || app.coldPathHooks.preBody.isSome ||
      app.coldPathHooks.beforeHandle.isSome)
    coldGuard app .preBody app.coldPathHooks.preBody <|
      coldGuard app .beforeHandle app.coldPathHooks.beforeHandle <|
        if allowed.isEmpty then fail (noRoute request)
        else fail (.methodNotAllowed (allowed.map HttpMethod.text))

/-! ## A route -/

def CompiledRoute.raced (route : CompiledRoute K) : Bool := route.requestTimeoutMs != 0

/-- `state.requestId`, when a hook has put another one there. -/
def adoptRequestId (w : World K) : World K :=
  match w.env.main.state.get? (.name (js "requestId")) with
  | some (.text id) => if id.isEmpty then w else { w with requestId := id }
  | _ => w

def authMessage (route : CompiledRoute K) : JsString :=
  js "Route " ++ route.path ++ js " requires authentication but no authentication hook ran"

def refuseUnauthenticatedRoute (app : App K) (route : CompiledRoute K) : Step K Unit := do
  let w ← get
  if !app.secureDefaults then pure ()
  else if w.env.main.isTrue .authOptionalPass then
    fail (.unauthorized (js "Authentication required"))
  else if app.production then fail (.internal (authMessage route))
  else pure ()

def assertAuthRan (app : App K) (route : CompiledRoute K) : Step K Unit := do
  let w ← get
  if route.requiresAuthRun && !w.env.main.isTrue .authRan then
    refuseUnauthenticatedRoute app route
  else pure ()

def rawRefused : Thrown K := .internal (js "Raw Response refused")

/-- `assertAcknowledgedSuccessfulHookResponse`. -/
def assertAcknowledged (route : CompiledRoute K) (res : Response K) : Except (Thrown K) Unit :=
  if 400 ≤ res.status || route.acknowledgeNoResponseBodySchema || res.schemaValidated then .ok ()
  else .error rawRefused

/-- The response of a `preBody` or `beforeHandle` hook. -/
def answerEarly (app : App K) (route : CompiledRoute K) (slot : Slot) (res : Response K) :
    Step K (Response K) := do
  if res.status < 400 then
    assertAuthRan app route
    modify fun w => w.note [.served slot w.env]
  orFail (assertAcknowledged route res)
  send app route.mergedHooks .main res

/-- The `preBody` or the `beforeHandle` hook, and what comes after it. -/
def gate (app : App K) (route : CompiledRoute K) (slot : Slot)
    (hook : Option (Hook K (Option (Response K)))) (rest : Step K (Response K)) :
    Step K (Response K) :=
  match hook with
  | none => rest
  | some hook => do
    let answer ← call slot (some .main) route.raced hook
    modify adoptRequestId
    match answer with
    | some res => answerEarly app route slot res
    | none => rest

/-- A `HEAD` request gets the status and the headers. -/
def headOnly (request : Request K) (res : Response K) : Response K :=
  if request.method = js "HEAD" then
    { status := res.status, headers := res.headers, body := K.noBody }
  else res

def runHandler (app : App K) (route : CompiledRoute K) : Step K (K.Value ⊕ Response K) :=
  match app.mock with
  | some mock => orFail (mock route)
  | none => call .handler (some .main) route.raced route.handler

def runAfterHandle (route : CompiledRoute K) (result : K.Value ⊕ Response K) :
    Step K (K.Value ⊕ Response K) :=
  match route.mergedHooks.afterHandle with
  | none => pure result
  | some afterHandle => do
    return (← call .afterHandle (some .main) route.raced (afterHandle result)).getD result

def respond (app : App K) (request : Request K) (route : CompiledRoute K) :
    K.Value ⊕ Response K → Step K (Response K)
  | .inr res => do
    if !route.acknowledgeNoResponseBodySchema then fail rawRefused
    return headOnly request (← send app route.mergedHooks .main res)
  | .inl value => do
    let res ← call .serialization (some .main) false (route.serialize value)
    let w ← get
    let res ← orFail (copyContextHeaders w.env.main res)
    let res ← orFail (res.setHeader (js "x-request-id") w.requestId)
    return headOnly request (← finalize app route.mergedHooks (some .main) res)

def handle (app : App K) (request : Request K) (route : CompiledRoute K) :
    Step K (Response K) := do
  assertAuthRan app route
  modify fun w => w.note [.served .handler w.env]
  let result ← runHandler app route
  respond app request route (← runAfterHandle route result)

/-- `createPreBodyContext` with what is put into it before the first hook. -/
def createContext (request : Request K) (route : CompiledRoute K) : Step K Unit := do
  modify fun w => { w with ctx := true, env := { w.env with main := {} } }
  let headers ← match route.corsDecorate with
    | none => pure none
    | some decorate => some <$> orFail (decorate request)
  modify fun w => { w with env := { w.env with main := {
    state := stateOf route.decorations
      (JsMap.set ∅ (.name (js "requestId")) (.text w.requestId))
    headers
    routePath := some route.path } } }

def routePath (app : App K) (request : Request K) (route : CompiledRoute K) :
    Step K (Response K) := do
  modify fun w => { w with route := some route }
  match route.onRequest with
  | none => pure ()
  | some onRequest => call .routeOnRequest none false (onRequest request)
  createContext request route
  gate app route .preBody route.mergedHooks.preBody do
    call .validation (some .main) route.raced route.validate
    gate app route .beforeHandle route.mergedHooks.beforeHandle do
      handle app request route

/-! ## The `try` block -/

def App.findRoute (app : App K) (request : Request K) : Option (RouteMatch (CompiledRoute K)) :=
  ((HttpMethod.ofText? request.method).bind fun method => app.router.find method request.pathname) <|>
    if request.method = js "HEAD" then app.router.find .get request.pathname else none

def isHidden (allowInternal : Bool) (found : RouteMatch (CompiledRoute K)) : Bool :=
  (found.handler.internal && !allowInternal) ||
    (found.encodedSeparator && !found.handler.allowEncodedSlash)

def App.allowed (app : App K) (allowInternal : Bool) (path : JsString) : List HttpMethod :=
  let rawAllowed := (app.router.allowedMethods path).2
  if allowInternal then rawAllowed
  else rawAllowed.filter fun m =>
    match app.router.find m path with
    | some candidate => !candidate.handler.internal
    | none => true

def runOnRequest (app : App K) (request : Request K) : Step K Unit :=
  match app.globalHooks.onRequest with
  | none => pure ()
  | some onRequest => do
    modify fun w => { w with onRequestRan := true }
    call .onRequest none false (onRequest request)

def tryBlock (app : App K) (allowInternal : Bool) (request : Request K) :
    Step K (Response K) := do
  orFail (app.inboundGuards request)
  runOnRequest app request
  match app.findRoute request with
  | none => do
    orFail (app.crossOrigin request)
    coldPath app request (app.allowed allowInternal request.pathname)
  | some found =>
    if isHidden allowInternal found then do
      orFail (app.crossOrigin request)
      fail (noRoute request)
    else do
      orFail (found.handler.crossOrigin request)
      routePath app request found.handler

/-! ## The `catch` block -/

def App.activeHooks (app : App K) (w : World K) : MergedHooks K :=
  match w.route with
  | some route => route.mergedHooks
  | none => app.globalHooks

def bootstrapContext (app : App K) (w : World K) : World K :=
  if !w.ctx && w.onRequestRan then
    { w with
      hookCtx := some .bootstrap
      env := { w.env with bootstrap := coldPathContext app w.requestId false } }
  else { w with hookCtx := if w.ctx then some .main else none }

/-- `applyAppCorsPolicy`: what it throws is caught. -/
def applyAppCorsPolicy (app : App K) (request : Request K) (res : Response K) : Response K :=
  match app.corsDecorate with
  | none => res
  | some decorate =>
    match decorate request with
    | .error _ => res
    | .ok headers =>
      if res.immutable then res
      else { res with headers := headers.entries.foldl (fun hs e => hs.set e.1 e.2) res.headers }

/-- `httpErr.status`, and the header fields of the error. -/
def errorData (app : App K) : Thrown K → ℕ × List (JsString × JsString)
  | .notFound _ => (404, [])
  | .methodNotAllowed allow => (405, [(js "allow", (js ", ").intercalate allow)])
  | .unauthorized _ => (401, [(js "cache-control", js "no-store")])
  | .internal _ | .immutableHeaders => (500, [])
  | .requestTimeout status => (status, [(js "cache-control", js "no-store")])
  | .other err => (app.httpError err).getD (500, [])

def isHttpError (app : App K) : Thrown K → Bool
  | .immutableHeaders => false
  | .other err => (app.httpError err).isSome
  | _ => true

def toResponse (app : App K) (err : Thrown K) (requestId : JsString) :
    Except (Thrown K) (Response K) :=
  match app.problem err requestId with
  | .error e => .error (.other e)
  | .ok body =>
    let (status, fields) := errorData app err
    .ok { status, body
          headers := fields.foldl (fun hs field => hs.set field.1 field.2)
            (JsMap.set ∅ (js "content-type") (js "application/problem+json")) }

def errorResponse (app : App K) (err : Thrown K) (w : World K) : Except (Thrown K) (Response K) :=
  if !isHttpError app err && 0 < app.disconnectStatusCode && w.env.aborted then
    .ok { status := app.disconnectStatusCode, disconnect := true, body := K.noBody
          headers := (JsMap.set ∅ (js "content-type") (js "application/problem+json")).set
            (js "x-request-id") w.requestId }
  else toResponse app err w.requestId

def dressError (app : App K) (request : Request K) (res : Response K) (w : World K) :
    Except (Thrown K) (Response K) := do
  let res ← if w.ctx then copyContextHeaders w.env.main res
    else .ok (applyAppCorsPolicy app request res)
  res.addHeader (js "x-request-id") w.requestId

def runOnError (hooks : MergedHooks K) (err : Thrown K) : Step K (Option (Response K)) :=
  match hooks.onError with
  | none => pure none
  | some onError => fun w => call .onError w.hookCtx false (onError err) w

def catchBlock (app : App K) (request : Request K) (err : Thrown K) : Step K (Response K) := do
  modify (bootstrapContext app)
  let w ← get
  match ← runOnError (app.activeHooks w) err with
  | some handled => do
    let w ← get
    orFail (dressError app request handled w)
  | none => do
    let w ← get
    let res ← orFail (errorResponse app err w)
    orFail (dressError app request res w)

/-! ## The whole -/

abbrev Held (K : Kinds) := Option (Slot × Rest K)

def timeoutError (app : App K) : Thrown K := .requestTimeout app.requestTimeoutStatus

/-- The `catch` block up to its `return`. What it throws goes to the caller. -/
def answerError (app : App K) (request : Request K) (err : Thrown K) (w : World K) :
    Finalizing K × World K :=
  match catchBlock app request err w with
  | .ok res w => finalizeResponse app (app.activeHooks w) w.hookCtx res w
  | .error (.thrown err) w => (.finished (.error err), w)
  | .error (.abandoned ..) w => (.finished (.error (timeoutError app)), w)

structure Answer (K : Kinds) where
  fin : Finalizing K
  held : Held K
  world : World K

def answer (app : App K) (allowInternal : Bool) (request : Request K) (w : World K) : Answer K :=
  match tryBlock app allowInternal request w with
  | .ok res w => ⟨.finished (.ok res), none, w⟩
  | .error (.thrown err) w =>
    let (fin, w) := answerError app request err w
    ⟨fin, none, w⟩
  | .error (.abandoned slot rest) w =>
    let (fin, w) := answerError app request (timeoutError app) w
    ⟨fin, some (slot, rest), w⟩

/-- `this.inflight--`, and the finalizers of the contexts there are. -/
def release (w : World K) : World K :=
  let ids := (if w.ctx then w.env.main.finalizers else []) ++
    (if w.preflightCtx then w.env.preflight.finalizers else []) ++
      (if w.hookCtx = some .bootstrap then w.env.bootstrap.finalizers else [])
  { w with
    inflight := w.inflight - 1
    env := { w.env with
      main := if w.ctx then { w.env.main with finalizers := [] } else w.env.main
      preflight := if w.preflightCtx then { w.env.preflight with finalizers := [] }
        else w.env.preflight
      bootstrap := if w.hookCtx = some .bootstrap then { w.env.bootstrap with finalizers := [] }
        else w.env.bootstrap }
    log := w.log ++ [.left, .finalized ids] }

/-- Whose turn it is when an answer and an abandoned step are both on their way. -/
inductive Turn
  | answer
  | step
  | grace
  deriving DecidableEq, Repr

def runOut (slot : Slot) : Rest K → World K → World K
  | .done _, w => w.note [.settled slot]
  | .run step next, w => runOut slot (next w.env) (World.tick { w with env := step w.env })

/-- `afterAbandonedStep`: the leases are held until the abandoned step settles or its grace window
elapses. In the end the answer and then the step come to theirs. -/
def settleHeld (app : App K) (slot : Slot) :
    List Turn → Rest K → Finalizing K → World K → Except (Thrown K) (Response K) × World K
  | [], rest, fin, w =>
    let (result, w) := fin.settle app (app.activeHooks w) w.hookCtx w
    (result, release (runOut slot rest w))
  | .answer :: turns, rest, fin, w =>
    let (fin, w) := fin.step app (app.activeHooks w) w.hookCtx w
    settleHeld app slot turns rest fin w
  | .step :: _, .done _, fin, w =>
    fin.settle app (app.activeHooks w) w.hookCtx (release (w.note [.settled slot]))
  | .step :: turns, .run step next, fin, w =>
    settleHeld app slot turns (next w.env) fin (World.tick { w with env := step w.env })
  | .grace :: _, rest, fin, w =>
    let (result, w) := fin.settle app (app.activeHooks w) w.hookCtx
      (release (w.note [.graceElapsed]))
    (result, runOut slot rest w)

/-- The `finally` block, and what runs after it. -/
def conclude (app : App K) (turns : List Turn) (answer : Answer K) :
    Except (Thrown K) (Response K) × World K :=
  match answer.held with
  | none =>
    answer.fin.settle app (app.activeHooks answer.world) answer.world.hookCtx
      (release answer.world)
  | some (slot, rest) => settleHeld app slot turns rest answer.fin answer.world

def World.enter (w : World K) : World K :=
  { w with
    inflight := w.inflight + 1
    ctx := false, preflightCtx := false, onRequestRan := false, hookCtx := none
    route := none, deadline := none
    env := { w.env with abandoned := false }
    log := w.log ++ [.entered] }

def shuttingDown (app : App K) : Response K where
  status := 503
  headers := ((JsMap.set ∅ (js "content-type") (js "application/problem+json")).set
    (js "retry-after") (js "5")).set (js "connection") (js "close")
  body := app.shuttingDown

/-- A request that is dispatched: `turns` says in which order what is left of it runs. -/
def dispatch (app : App K) (allowInternal : Bool) (turns : List Turn) (request : Request K)
    (w : World K) : Except (Thrown K) (Response K) × World K :=
  if w.draining then (.ok (shuttingDown app), w)
  else conclude app turns (answer app allowInternal request w.enter)

end Daloy.Dispatch
