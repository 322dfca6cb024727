import Daloy.Egress.Policy
import Daloy.Foundations.Logs
import Daloy.Foundations.Runs

/-! # The guarded fetch

The function that `fetchGuard` of `src/fetch-guard.ts` returns, as a machine that takes one hop of a
redirect chain a step. What the world contributes to a hop, what the resolver answers and the
response, is any value.

* `newRequest`: the `Request` constructor.
* `begin`: what precedes the loop. `admitHop`, `follow`: a turn of the loop up to the dispatch, and
  from the response on.
* `log`: the requests that were dispatched, each with the resolver of its hop.
-/

namespace Daloy.Egress
set_option autoImplicit false

open Daloy.Unicode Daloy.Text Daloy.Http

/-! ## Requests -/

inductive RequestBody
  | bytes (bytes : List UInt8)
  | stream
  deriving DecidableEq

inductive RequestRedirect
  | follow
  | manual
  | error
  deriving DecidableEq

structure Request where
  url : Url
  method : JsString := js "GET"
  headers : Headers := {}
  body : Option RequestBody := none
  redirect : RequestRedirect := .follow

/-- `init.body`: a value in memory, with the bound of `inMemoryBodySize` where it knows the type, or
a stream. -/
inductive BodyInit
  | memory (bytes : List UInt8) (size : Option ℕ) (contentType : Option HeaderValue)
  | stream

def BodyInit.body : BodyInit → RequestBody
  | .memory bytes _ _ => .bytes bytes
  | .stream => .stream

def BodyInit.contentType : BodyInit → Option HeaderValue
  | .memory _ _ contentType => contentType
  | .stream => none

structure RequestInit where
  method : Option JsString := none
  headers : Option Headers := none
  body : Option BodyInit := none
  redirect : Option RequestRedirect := none

/-- The first argument of `fetch`. -/
inductive Input
  | text (text : JsString)
  | url (url : Url)
  | request (request : Request)

/-- A method as a request keeps it, `none` for one that is refused. -/
def normalizeMethod (method : JsString) : Option JsString :=
  let upper := toUpperCase method
  if ¬ IsToken method ∨ upper ∈ [js "CONNECT", js "TRACE", js "TRACK"] then none
  else if upper ∈ [js "DELETE", js "GET", js "HEAD", js "OPTIONS", js "POST", js "PUT"] then some upper
  else some method

def fresh (url : Url) : Option Request := if url.hasCredentials then none else some { url }

def withContentType (headers : Headers) (contentType : Option HeaderValue) : Headers :=
  match contentType with
  | some value =>
    if headers.has (js "content-type") then headers
    else ⟨headers.fields.set (js "content-type") value⟩
  | none => headers

/-- `new Request(input, init)`, `none` where it throws. -/
def newRequest (rt : Runtime) (input : Input) (init : RequestInit) : Option Request := do
  let base ← match input with
    | .text text => (rt.newUrl text none).bind fresh
    | .url url => fresh url
    | .request request => some request
  let method ← match init.method with
    | some method => normalizeMethod method
    | none => some base.method
  let body := (init.body.map BodyInit.body).orElse fun _ => base.body
  if body.isSome ∧ method ∈ [js "GET", js "HEAD"] then none
  return {
    url := base.url
    method
    headers := withContentType (init.headers.getD base.headers) (init.body.bind BodyInit.contentType)
    body
    redirect := init.redirect.getD base.redirect }

def deleteHeader (headers : Headers) (name : JsString) : Except HeaderError Headers :=
  if IsToken name then .ok ⟨headers.fields.delete (toLowerCase name)⟩ else .error .invalidName

def stripBodyHeaders (headers : Headers) : Headers :=
  ⟨[js "content-length", js "content-type", js "content-encoding", js "content-language",
    js "content-location"].foldl JsMap.delete headers.fields⟩

/-! ## The loop -/

inductive Failure
  | ssrfBlocked (error : SsrfBlockedError)
  | typeError
  | network

/-- A response, as far as the loop reads it. -/
structure Reply where
  status : ℕ
  location : Option JsString := none

inductive Outcome
  | response (res : Reply)
  | failed (failure : Failure)

structure Loop where
  hop : ℕ := 0
  currentUrl : Url
  request : Request
  userRedirect : RequestRedirect
  bodyBytes : Option (List UInt8) := none
  streamingBody : Bool := false
  downgradeHop : Bool := false

/-- A request on the wire: the resolver of its hop, and the address that the connection is pinned
to, if it is. -/
structure Dispatch where
  resolve : JsString → Option (List JsString)
  request : Request
  pinned : Option JsString

/-- What the world answers on a hop; no reply where the dispatch fails. -/
structure Hop where
  resolve : JsString → Option (List JsString)
  reply : Option Reply

inductive Phase
  | running (l : Loop)
  | finished (outcome : Outcome)

structure State where
  log : List Dispatch := []
  phase : Phase

def isRedirect (status : ℕ) : Bool := status ∈ [301, 302, 303, 307, 308]

/-- The check in front of the `Request` constructor, on a text or a `URL`. -/
def refuseCredentials (rt : Runtime) (input : Input) : Except Failure Unit :=
  let check (pre : Url) : Except Failure Unit :=
    if pre.hasCredentials then
      .error (.ssrfBlocked { url := .inr pre.withoutCredentials, reason := .credentialsInUrl })
    else .ok ()
  match input with
  | .text text =>
    match rt.newUrl text none with
    | none => .error (.ssrfBlocked { url := .inl (js "[invalid URL]"), reason := .invalidUrl })
    | some pre => check pre
  | .url pre => check pre
  | .request _ => .ok ()

def credentialHeaders : List JsString :=
  [js "authorization", js "cookie", js "proxy-authorization", js "host"]

namespace FetchGuard

/-- The bytes that are kept for a replay, and whether the body can be sent only once. -/
def bufferBody (g : FetchGuard) (init : RequestInit) (request : Request) :
    Option (List UInt8) × Bool :=
  match request.body with
  | none => (none, false)
  | some body =>
    match init.body, body with
    | some (.memory _ (some size) _), .bytes serialized =>
      if g.maxReplayBodyBytes.atLeast size ∧ g.maxReplayBodyBytes.atLeast serialized.length then
        (some serialized, false)
      else (none, true)
    | _, _ => (none, true)

def begin (g : FetchGuard) (rt : Runtime) (input : Input) (init : RequestInit) : State :=
  match refuseCredentials rt input with
  | .error failure => { phase := .finished (.failed failure) }
  | .ok () =>
    match newRequest rt input init with
    | none => { phase := .finished (.failed .typeError) }
    | some request =>
      let (bodyBytes, streamingBody) := g.bufferBody init request
      { phase := .running
          { currentUrl := request.url, request, userRedirect := init.redirect.getD request.redirect
            bodyBytes, streamingBody } }

def dispatchRequest (l : Loop) : Request :=
  { l.request with
    body := (l.bodyBytes.map RequestBody.bytes).orElse fun _ => l.request.body
    redirect := .manual }

variable [LowerCase]

def admitHop (g : FetchGuard) (resolve : JsString → Option (List JsString)) (l : Loop) :
    Except Failure Dispatch := do
  let pinnedIp ← (g.validateUrl resolve l.currentUrl).mapError .ssrfBlocked
  if l.downgradeHop ∧ ¬ g.allowProtocolDowngrade then
    throw (.ssrfBlocked { url := .inr l.currentUrl, reason := .protocolDowngrade })
  return {
    resolve
    request := dispatchRequest l
    pinned :=
      if g.pinDns ∧ l.currentUrl.protocol ∈ [js "http:", js "https:"] then pinnedIp else none }

omit [LowerCase]

/-- Whether a redirect turns the request into a `GET`. -/
def shouldDowngrade (l : Loop) (status : ℕ) : Bool :=
  status = 303 ∨ (status ∈ [301, 302] ∧ toUpperCase l.request.method ∉ [js "GET", js "HEAD"])

/-- The request for the next hop, before anything is taken out for another origin. -/
def nextRequest (l : Loop) (next : Url) (status : ℕ) : Request :=
  if shouldDowngrade l status then
    { url := next, headers := stripBodyHeaders l.request.headers, redirect := .manual }
  else { l.request with url := next }

def redirectTo (g : FetchGuard) (l : Loop) (next : Url) (status : ℕ) : Except Outcome Loop :=
  if l.streamingBody ∧ ¬ shouldDowngrade l status then
    .error (.failed (.ssrfBlocked { url := .inr next, reason := .redirectBodyNotReplayable }))
  else
    let request := nextRequest l next status
    let stripped :=
      if next.origin ≠ l.currentUrl.origin then
        (credentialHeaders ++ g.sensitiveHeaders).foldlM deleteHeader request.headers
      else .ok request.headers
    match stripped with
    | .error _ => .error (.failed .typeError)
    | .ok headers =>
      .ok { l with
        hop := l.hop + 1
        currentUrl := next
        request := { request with headers }
        bodyBytes := if shouldDowngrade l status then none else l.bodyBytes
        streamingBody := if shouldDowngrade l status then false else l.streamingBody
        downgradeHop := l.currentUrl.protocol = js "https:" ∧ next.protocol = js "http:" }

def follow (g : FetchGuard) (rt : Runtime) (l : Loop) (res : Reply) : Except Outcome Loop :=
  if ¬ isRedirect res.status then .error (.response res)
  else if l.userRedirect = .error then .error (.failed .typeError)
  else if l.userRedirect = .manual ∨ g.maxRedirects = .finite 0 then .error (.response res)
  else if g.maxRedirects.reached l.hop then
    .error (.failed (.ssrfBlocked { url := .inr l.currentUrl, reason := .tooManyRedirects }))
  else match res.location with
    | none | some [] => .error (.response res)
    | some loc =>
      match rt.newUrl loc (some l.currentUrl) with
      | none => .error (.failed (.ssrfBlocked { url := .inl loc, reason := .invalidUrl }))
      | some next =>
        if next.hasCredentials then
          .error (.failed (.ssrfBlocked
            { url := .inr next.withoutCredentials, reason := .credentialsInUrl }))
        else g.redirectTo l next res.status

def afterDispatch (g : FetchGuard) (rt : Runtime) (l : Loop) : Option Reply → Phase
  | none => .finished (.failed .network)
  | some res =>
    match g.follow rt l res with
    | .ok l' => .running l'
    | .error outcome => .finished outcome

variable [LowerCase]

def step (g : FetchGuard) (rt : Runtime) (s : State) (h : Hop) : Option State :=
  match s.phase with
  | .finished _ => none
  | .running l =>
    match g.admitHop h.resolve l with
    | .error failure => some { s with phase := .finished (.failed failure) }
    | .ok d => some { log := s.log ++ [d], phase := g.afterDispatch rt l h.reply }

/-- A call of the guarded `fetch`, with what the world answers on its hops. -/
def guarded (g : FetchGuard) (rt : Runtime) (input : Input) (init : RequestInit) (hops : List Hop) :
    Option State :=
  Runs.run (g.step rt) (g.begin rt input init) hops

end FetchGuard

end Daloy.Egress
